import SoKernel.Ipc.CallFrames
import SoKernel.Proc.Dispatch

/-!
# Waking the waiters of a process that ends

The loop over the waiters puts each of them into a ready queue, but takes none out of the queue
of blocked processes, whose links the ready queues share. That queue keeps its size, so it is
right afterwards only if nobody waited. The other queues stay lists.
-/

namespace SoKernel

open Function (update)
open LinkedList (Chain)

variable {k k' k₁ : Kernel} {c p next : ℕ} {Q Q' : QueueId → List ℕ} {L : List ℕ} {q : QueueId}
variable {frame : Frame}

section Besides

/-- The state with another record for the queue of blocked processes. -/
def Kernel.withBlocked (k : Kernel) (B : ProcessQueue) : Kernel :=
  { k with queues := update k.queues .blocked B }

theorem withBlocked_self (k : Kernel) (B : ProcessQueue) :
    (k.withBlocked B).withBlocked (k.queues .blocked) = k := by
  simp [Kernel.withBlocked]

theorem unlinkFromQueue_withBlocked (k : Kernel) (B : ProcessQueue) (hq : q ≠ .blocked) (p : ℕ) :
    unlinkFromQueue (k.withBlocked B) q p = (unlinkFromQueue k q p).withBlocked B := by
  unfold unlinkFromQueue Kernel.withBlocked
  dsimp only
  split <;> split <;>
    simp only [Function.update_of_ne hq, Function.update_self] <;>
    split <;> simp [Function.update_comm hq]

theorem detachFromQueue_withBlocked (k : Kernel) (B : ProcessQueue) (hq : q ≠ .blocked) (p : ℕ) :
    detachFromQueue (k.withBlocked B) q p = (detachFromQueue k q p).map (·.withBlocked B) := by
  have hqueued : isQueued (k.withBlocked B) q p = isQueued k q p := by
    simp only [isQueued, Kernel.withBlocked, Function.update_of_ne hq]
  rw [detachFromQueue, detachFromQueue, hqueued]
  split
  · rfl
  · rw [Option.map_map]
    refine congrArg (Option.map · _) (funext fun found => ?_)
    cases found
    · rfl
    · exact unlinkFromQueue_withBlocked k B hq p

theorem appendToQueue_withBlocked (k : Kernel) (B : ProcessQueue) (hq : q ≠ .blocked) (p : ℕ) :
    appendToQueue (k.withBlocked B) q p = (appendToQueue k q p).withBlocked B := by
  unfold appendToQueue Kernel.withBlocked
  simp only [Function.update_of_ne hq]
  split <;> simp [Function.update_comm hq]

theorem processQueuePush_withBlocked (k : Kernel) (B : ProcessQueue) (hq : q ≠ .blocked) (p : ℕ) :
    processQueuePush (k.withBlocked B) q p = (processQueuePush k q p).map (·.withBlocked B) := by
  have hhead : (k.withBlocked B).queues q = k.queues q := Function.update_of_ne hq _ _
  rw [processQueuePush, processQueuePush, hhead]
  split
  · rfl
  · rw [Option.map_map]
    show Option.map _ (if k.queueNext p ≠ 0 ∨ k.queuePrev p ≠ 0 ∨ (k.queues q).head = p then _ else _) =
      _
    split
    · rw [detachFromQueue_withBlocked k B hq, Option.map_map]
      refine congrArg (Option.map · _) (funext fun k' => ?_)
      exact appendToQueue_withBlocked k' B hq p
    · exact congrArg some (appendToQueue_withBlocked k B hq p)

theorem processQueuePop_withBlocked (k : Kernel) (B : ProcessQueue) (hq : q ≠ .blocked) :
    processQueuePop (k.withBlocked B) q =
      (processQueuePop k q).map fun r => (r.1, r.2.withBlocked B) := by
  have hhead : (k.withBlocked B).queues q = k.queues q := Function.update_of_ne hq _ _
  rw [processQueuePop, processQueuePop, hhead]
  split
  · rfl
  · rw [detachFromQueue_withBlocked k B hq, Option.map_map, Option.map_map]
    rfl

/-- The queues are the lists `Q`, where the queue of blocked processes does not count. -/
def RingsBesides (k : Kernel) (Q : QueueId → List ℕ) : Prop :=
  Rings k.queueNext k.queuePrev (update k.queues .blocked ⟨0, 0, 0⟩) Q

theorem QueueList.empty (nx pv : ℕ → ℕ) : QueueList nx pv ⟨0, 0, 0⟩ [] := by
  refine ⟨?_, rfl⟩
  rw [LinkedRing.Ring.nil_iff]
  simp

theorem Rings.besides (h : Rings k.queueNext k.queuePrev k.queues Q) :
    RingsBesides k (update Q .blocked []) :=
  h.update_queue (QueueList.empty _ _) (fun a ha => by cases ha) (fun _ _ _ _ => rfl)
    fun _ _ _ _ => rfl

/-- The links that an operation makes for the other queues, with the record of the queue of
blocked processes as it was. -/
theorem Rings.restore {nx pv : ℕ → ℕ} {qs : QueueId → ProcessQueue} (h : Rings nx pv qs Q)
    (hnil : Q .blocked = []) (B : ProcessQueue) :
    Rings nx pv (update (update qs .blocked B) .blocked ⟨0, 0, 0⟩) Q := by
  have hlist := h.list .blocked
  rw [hnil] at hlist
  have hempty : qs .blocked = ⟨0, 0, 0⟩ := by
    have hhead := hlist.head_eq
    have htail := hlist.tail_eq
    have hsize := hlist.size_eq
    cases hB : qs .blocked
    rw [hB] at hhead htail hsize
    simp_all
  rw [Function.update_idem, ← hempty, Function.update_eq_self]
  exact h

theorem RingsBesides.push (h : RingsBesides k Q) (hnil : Q .blocked = []) (hq : q ≠ .blocked)
    (hp0 : p ≠ 0) (hlt : p < addressCount) (hfree : ∀ q', q' ≠ q → p ∉ Q q') :
    ∃ l, processQueuePush k q p = some (k.relink l) ∧
      RingsBesides (k.relink l) (update Q q ((Q q).erase p ++ [p])) ∧
      l.queues .blocked = k.queues .blocked := by
  obtain ⟨nx, pv, qs, heq, hrings⟩ := processQueuePush_spec (k := k.withBlocked ⟨0, 0, 0⟩) h hp0 hlt
    hfree
  refine ⟨⟨nx, pv, update qs .blocked (k.queues .blocked)⟩, ?_, hrings.restore ?_ _, by simp⟩
  · have hback := processQueuePush_withBlocked (k.withBlocked ⟨0, 0, 0⟩) (k.queues .blocked) hq p
    rw [withBlocked_self, heq] at hback
    exact hback
  · rw [Function.update_of_ne (Ne.symm hq), hnil]

theorem RingsBesides.pop (h : RingsBesides k Q) (hnil : Q .blocked = []) (hq : q ≠ .blocked) :
    ∃ l, processQueuePop k q = some ((Q q).head?.getD 0, k.relink l) ∧
      RingsBesides (k.relink l) (update Q q (Q q).tail) ∧
      l.queues .blocked = k.queues .blocked := by
  obtain ⟨nx, pv, qs, heq, hrings⟩ := processQueuePop_spec (k := k.withBlocked ⟨0, 0, 0⟩) (q := q) h
  refine ⟨⟨nx, pv, update qs .blocked (k.queues .blocked)⟩, ?_, hrings.restore ?_ _, by simp⟩
  · have hback := processQueuePop_withBlocked (k.withBlocked ⟨0, 0, 0⟩) (k.queues .blocked) hq
    rw [withBlocked_self, heq] at hback
    exact hback
  · rw [Function.update_of_ne (Ne.symm hq), hnil]

end Besides

section Loops

/-- Waking the waiters of a process leaves the queue of blocked processes alone. -/
theorem RingsBesides.wakeWaiters (n : ℕ) (h : RingsBesides k Q) (hnil : Q .blocked = [])
    (hchain : Chain k.waiterNext 0 (k.waitersHead p) L) (hn : L.length < n)
    (hfree : ∀ w ∈ L, w ≠ p ∧ w < addressCount ∧ ∀ q, w ∉ Q q) :
    ∃ l Q', wakeWaiters p n k = some
        ({ k with
          waitersHead := update k.waitersHead p 0
          waiterNext := setAll L 0 k.waiterNext
          waitingOnPid := setAll L 0 k.waitingOnPid
          state := setAll L .ready k.state }.relink l) ∧
      RingsBesides (k.relink l) Q' ∧ Q' .blocked = [] ∧ Q' .finished = Q .finished ∧
      l.queues .blocked = k.queues .blocked ∧ ∀ q, ∀ a ∈ Q' q, a ∈ Q q ∨ a ∈ L := by
  induction L generalizing k Q n with
  | nil =>
      obtain ⟨n, rfl⟩ := Nat.exists_eq_add_of_lt hn
      have h0 : k.waitersHead p = 0 := hchain
      have hupd : update k.waitersHead p 0 = k.waitersHead := by
        rw [← h0, Function.update_eq_self]
      refine ⟨⟨k.queueNext, k.queuePrev, k.queues⟩, Q, ?_, h, hnil, rfl, rfl, fun _ _ ha => .inl ha⟩
      simp only [setAll_nil, hupd, SoKernel.wakeWaiters, h0, if_pos]
  | cons w L ih =>
      obtain ⟨n, rfl⟩ : ∃ m, n = m + 1 := ⟨n - 1, by omega⟩
      obtain ⟨hhead, hw0, hrest⟩ := hchain
      obtain ⟨hwp, hlt, hwfree⟩ := hfree w List.mem_cons_self
      have hnot : w ∉ L := (List.nodup_cons.mp (LinkedList.Chain.nodup ⟨hhead, hw0, hrest⟩)).1
      obtain ⟨l, hpush, hrings, hblocked⟩ := RingsBesides.push
        (k := { k with
          waitersHead := update k.waitersHead p (k.waiterNext w)
          waiterNext := update k.waiterNext w 0
          waitingOnPid := update k.waitingOnPid w 0
          state := update k.state w .ready }) (q := .ready (k.priority w)) h hnil (by simp) hw0 hlt
        fun q _ => hwfree q
      have hne : ∀ v ∈ L, v ≠ w := fun v hv e => hnot (e ▸ hv)
      have hmoved : ∀ q, ∀ a ∈ update Q (.ready (k.priority w))
          ((Q (.ready (k.priority w))).erase w ++ [w]) q, a ∈ Q q ∨ a = w := by
        intro q a ha
        rw [mem_put fun q' _ => hwfree q'] at ha
        split at ha
        · exact Or.inr ‹a = w›
        · exact Or.inl ha
      have hchain' : Chain (update k.waiterNext w 0) 0
          (update k.waitersHead p (k.waiterNext w) p) L := by
        rw [Function.update_self]
        exact hrest.congr fun v hv => Function.update_of_ne (hne v hv) _ _
      obtain ⟨l', Q', heq, hrings', hnil', hfin, hsame, horigin⟩ := ih n hrings (by simp [hnil])
        hchain' (by simpa using hn) fun v hv => by
          obtain ⟨hvp, hvlt, hvfree⟩ := hfree v (List.mem_cons_of_mem _ hv)
          exact ⟨hvp, hvlt, fun q hm => (hmoved q v hm).elim (hvfree q) (hne v hv)⟩
      simp only [setAll_cons, Function.update_idem] at heq ⊢
      refine ⟨l', Q', ?_, hrings', hnil', ?_, hsame.trans hblocked, fun q a ha => ?_⟩
      · rw [SoKernel.wakeWaiters]
        simp only [hhead, if_neg hw0, readyQueuePush]
        rw [hpush, Option.bind_eq_bind, Option.bind_some]
        exact heq
      · rw [hfin, Function.update_of_ne (by simp)]
      · rcases horigin q a ha with ha | ha
        · rcases hmoved q a ha with ha | rfl
          · exact Or.inl ha
          · exact Or.inr List.mem_cons_self
        · exact Or.inr (List.mem_cons_of_mem _ ha)

theorem RingsBesides.popFirst (prs : List Priority) (h : RingsBesides k Q)
    (hnil : Q .blocked = []) :
    ∃ p l Q', popFirstOf k prs = some (p, k.relink l) ∧ RingsBesides (k.relink l) Q' ∧
      Q' .blocked = [] ∧ Q' .finished = Q .finished ∧ l.queues .blocked = k.queues .blocked ∧
      (p = 0 ∧ Q' = Q ∧ (∀ pr ∈ prs, Q (.ready pr) = []) ∨ ∃ pr, p ∈ Q (.ready pr)) := by
  induction prs generalizing k Q with
  | nil =>
      exact ⟨0, ⟨k.queueNext, k.queuePrev, k.queues⟩, Q, rfl, h, hnil, rfl, rfl, .inl ⟨rfl, rfl, by simp⟩⟩
  | cons pr prs ih =>
      obtain ⟨l, heq, hrings, hblocked⟩ := h.pop (q := .ready pr) hnil (by simp)
      rw [popFirstOf, heq, Option.bind_eq_bind, Option.bind_some]
      dsimp only
      cases hL : Q (.ready pr) with
      | nil =>
          rw [hL, List.tail_nil, ← hL, Function.update_eq_self] at hrings
          rw [List.head?_nil, Option.getD_none, if_neg (not_not.mpr rfl)]
          obtain ⟨p, l', Q', heq', hrings', hnil', hfin, hsame, hcases⟩ := ih hrings hnil
          refine ⟨p, l', Q', heq', hrings', hnil', hfin, hsame.trans hblocked, ?_⟩
          exact hcases.imp_left fun hz => ⟨hz.1, hz.2.1, List.forall_mem_cons.mpr ⟨hL, hz.2.2⟩⟩
      | cons x L =>
          have hx : x ∈ Q (.ready pr) := by simp [hL]
          rw [List.head?_cons, Option.getD_some, if_pos (h.ne_zero hx)]
          exact ⟨x, l, _, rfl, hrings, by simp [hnil], by simp, hblocked, .inr ⟨pr, hx⟩⟩

/-- Collecting processes whose descriptors are closed leaves the other queues alone. -/
theorem RingsBesides.collect (n : ℕ) (h : RingsBesides k Q) (hnil : Q .blocked = [])
    (hclosed : ∀ a ∈ Q .finished, ∀ i < maxFds, k.fdType a i = .terminal) :
    ∃ dead k', collectLoop n k = some (dead, k') ∧ k'.queues .blocked = k.queues .blocked ∧
      k'.current = k.current ∧ k'.idleP = k.idleP ∧
      ∃ Q', RingsBesides k' Q' ∧ ∀ q, q ≠ .finished → Q' q = Q q := by
  induction n generalizing k Q with
  | zero => exact ⟨[], k, rfl, rfl, rfl, rfl, Q, h, fun _ _ => rfl⟩
  | succ n ih =>
      obtain ⟨l, heq, hrings, hblocked⟩ := h.pop (q := .finished) hnil (by simp)
      rw [collectLoop, heq, Option.bind_eq_bind, Option.bind_some]
      dsimp only
      have hothers : ∀ q, q ≠ QueueId.finished → update Q .finished (Q .finished).tail q = Q q :=
        fun q hq => Function.update_of_ne hq _ _
      cases hF : Q .finished with
      | nil =>
          rw [List.head?_nil, Option.getD_none, if_pos rfl]
          exact ⟨[], k.relink l, rfl, hblocked, rfl, rfl, _, hrings, hothers⟩
      | cons x F =>
          have hx : x ∈ Q .finished := by simp [hF]
          obtain ⟨pa, fc, ns, ps, hdestroy⟩ := processDestroy_shape (k.relink l) (h.ne_zero hx)
            (hclosed x hx)
          rw [List.head?_cons, Option.getD_some, if_neg (h.ne_zero hx), hdestroy, Option.bind_eq_bind,
            Option.bind_some]
          obtain ⟨dead, k', hrest, hsame, hcur, hidle, Q', hrings', hothers'⟩ := ih
            (k := { k.relink l with
              parent := pa
              firstChild := fc
              nextSibling := ns
              prevSibling := ps
              allocated := update k.allocated x false })
            (Q := update Q .finished (Q .finished).tail) hrings (by simp [hnil]) fun a ha => by
              rw [Function.update_self] at ha
              exact hclosed a (List.mem_of_mem_tail ha)
          refine ⟨x :: dead, k', ?_, hsame.trans hblocked, hcur, hidle, Q', hrings', fun q hq => ?_⟩
          · rw [hrest]
            rfl
          · rw [hothers' q hq, hothers q hq]

end Loops

section Waking

/-- The listed processes, and no others, are blocked in `syscall_wait` for the process. -/
structure BlockedOn (k : Kernel) (p : ℕ) (L : List ℕ) : Prop where
  chain : Chain k.waiterNext 0 (k.waitersHead p) L
  blocked : ∀ w ∈ L, w ≠ k.current ∧ w ≠ p ∧ k.allocated w = true ∧ k.state w = .blocked ∧
    k.waitingOnPid w = k.pid p

/-- The waiters of a process were woken cleanly, when `Q` are the queues before: what is left in
the queue of blocked processes is in order, and each waiter is in one place, which is the current
one or the tail of the ready queue of its priority. -/
def WakesCleanly (p : ℕ) (L : List ℕ) (Q : QueueId → List ℕ) (k' : Kernel) : Prop :=
  ∃ Q', Rings k'.queueNext k'.queuePrev k'.queues Q' ∧
    Q' .blocked = (Q .blocked).filter (fun a => decide (a ≠ p ∧ a ∉ L)) ∧
    ∀ w ∈ L, (w = k'.current ∧ ∀ q, w ∉ Q' q) ∨
      w ≠ k'.current ∧ ∃ front back, Q' (.ready (k'.priority w)) = front ++ back ∧ w ∈ back ∧
        ∀ a ∈ back, a ∈ L

theorem BlockedOn.mem_queue (hL : BlockedOn k p L) (W : WellFormed k Q) {w : ℕ} (hw : w ∈ L) :
    w ∈ Q .blocked := by
  obtain ⟨hcur, -, ha, hs, -⟩ := hL.blocked w hw
  exact (W.placed.members.blocked w (by simp)).mpr ⟨ha, hs, hcur⟩

/-- What the loop over the waiters needs. -/
theorem BlockedOn.free (hL : BlockedOn k p L) (h : Placed k c Q) :
    ∀ w ∈ L, w ≠ p ∧ w < addressCount ∧ ∀ q, w ∉ update Q .blocked [] q := by
  intro w hw
  obtain ⟨-, hwp, ha, hs, -⟩ := hL.blocked w hw
  refine ⟨hwp, (h.valid w ha).2, fun q hm => ?_⟩
  by_cases hq : q = .blocked
  · subst hq
    rw [Function.update_self] at hm
    cases hm
  · rw [Function.update_of_ne hq] at hm
    exact h.free_of_blocked hs hq hm

theorem BlockedOn.length_lt (hL : BlockedOn k p L) (h : Placed k c Q) : L.length < addressCount :=
  LinkedRing.length_lt_of_nodup hL.chain.nodup (fun h0 => hL.chain.ne_null h0 rfl)
    (fun w hw => (h.valid w (hL.blocked w hw).2.2.1).2) addressCount_pos

/-- The queue keeps its size only if nobody has to leave it. -/
theorem WakesCleanly.length (hclean : WakesCleanly p L Q k') :
    (k'.queues .blocked).size = ((Q .blocked).filter fun a => decide (a ≠ p ∧ a ∉ L)).length := by
  obtain ⟨Q', hrings, hblocked, -⟩ := hclean
  rw [← hblocked, (hrings.list .blocked).size_eq]

theorem eq_nil_of_length_filter {M : List ℕ} (hsub : ∀ w ∈ L, w ∈ M ∧ w ≠ p)
    (hlen : (M.filter fun a => decide (a ≠ p ∧ a ∉ L)).length =
      (M.filter fun a => decide (a ≠ p)).length) : L = [] := by
  cases L with
  | nil => rfl
  | cons w L =>
      exfalso
      have hsplit : (M.filter fun a => decide (a ≠ p ∧ a ∉ w :: L)) =
          (M.filter fun a => decide (a ≠ p)).filter fun a => decide (a ∉ w :: L) := by
        rw [List.filter_filter]
        refine List.filter_congr fun a _ => ?_
        simp [Bool.and_comm]
      rw [hsplit, List.length_filter_eq_length_iff] at hlen
      have hmem : w ∈ M.filter fun a => decide (a ≠ p) := by
        obtain ⟨hwM, hwp⟩ := hsub w List.mem_cons_self
        simp [hwM, hwp]
      simpa using hlen w hmem

end Waking

section Closing

/-- What the calls on pipes leave alone. -/
structure Steady (k k' : Kernel) : Prop where
  current : k'.current = k.current
  idleP : k'.idleP = k.idleP
  fdType : k'.fdType = k.fdType

theorem steady_frame : CallFrame Steady where
  refl _ := ⟨rfl, rfl, rfl⟩
  trans h h' := ⟨h'.current.trans h.current, h'.idleP.trans h.idleP, h'.fdType.trans h.fdType⟩
  wait k id _ := by
    obtain ⟨sems, wos, swn, heq⟩ := semWaitStart_shape k id
    rw [heq]
    exact ⟨rfl, rfl, rfl⟩
  signal h := by
    obtain ⟨w, heffect⟩ := semSignal_effect h
    cases heffect with
    | missing => exact ⟨rfl, rfl, rfl⟩
    | incremented i => exact ⟨rfl, rfl, rfl⟩
    | released i w found head ne l b => exact ⟨rfl, rfl, rfl⟩
  pipe _ _ _ := ⟨rfl, rfl, rfl⟩

theorem semCloseById_steady (k : Kernel) (id : ℕ) : Steady k (semCloseById k id).2 := by
  obtain ⟨sems, heq⟩ := semCloseById_shape k id
  rw [heq]
  exact ⟨rfl, rfl, rfl⟩

theorem pipeCloseById_steady {id : ℕ} {isWriter : Bool} {x : ℕ × Kernel}
    (h : pipeCloseById k id isWriter = some x) : Steady k x.2 := by
  rcases steady_frame.pipeCloseById h with ⟨-, heq⟩ | ⟨i, -, hclose⟩
  · rw [heq]
    exact steady_frame.refl k
  · split at hclose
    · obtain ⟨k₂, hk₂, heq⟩ := hclose
      rw [heq]
      exact steady_frame.trans hk₂ (steady_frame.trans (semCloseById_steady _ _)
        (steady_frame.trans (semCloseById_steady _ _) (semCloseById_steady _ _)))
    · exact hclose

/-- Closing a descriptor makes it a terminal and leaves the others. -/
theorem closeFd_steady {i : ℕ} (h : closeFd k p i = some k') :
    k'.current = k.current ∧ k'.idleP = k.idleP ∧
      k'.fdType p = update (k.fdType p) i .terminal := by
  unfold closeFd at h
  split at h
  · rename_i hterm
    cases h
    exact ⟨rfl, rfl, by rw [← hterm, Function.update_eq_self]⟩
  · obtain ⟨k₂, hclose, hlast⟩ := Option.bind_eq_some_iff.mp h
    cases hlast
    have hk₂ : Steady k k₂ := by
      split at hclose
      · cases hclose
        exact steady_frame.refl _
      · split at hclose
        · cases hclose
          exact steady_frame.refl _
        · obtain ⟨x, hx, rfl⟩ := Option.map_eq_some_iff.mp hclose
          exact pipeCloseById_steady hx
    refine ⟨hk₂.current, hk₂.idleP, ?_⟩
    show update k₂.fdType p _ p = _
    rw [Function.update_self, hk₂.fdType]

theorem closeFds_steady {is : List ℕ} (h : closeFds p is k = some k') :
    k'.current = k.current ∧ k'.idleP = k.idleP ∧
      ∀ i, (i ∈ is ∨ k.fdType p i = .terminal) → k'.fdType p i = .terminal := by
  induction is generalizing k with
  | nil =>
      cases h
      exact ⟨rfl, rfl, fun i hi => hi.resolve_left (by simp)⟩
  | cons j is ih =>
      obtain ⟨k₂, hfirst, hrest⟩ := Option.bind_eq_some_iff.mp h
      obtain ⟨hcur, hidle, hterm⟩ := closeFd_steady hfirst
      obtain ⟨hcur', hidle', hterm'⟩ := ih hrest
      refine ⟨hcur'.trans hcur, hidle'.trans hidle, fun i hi => hterm' i ?_⟩
      rw [hterm]
      by_cases hij : i = j
      · exact Or.inr (by rw [hij, Function.update_self])
      · rw [Function.update_of_ne hij]
        exact hi.imp_left fun hm => (List.mem_cons.mp hm).resolve_left hij

theorem processCloseFds_steady (hp : p ≠ 0) (h : processCloseFds k p = some k') :
    k'.current = k.current ∧ k'.idleP = k.idleP ∧ ∀ i < maxFds, k'.fdType p i = .terminal := by
  rw [processCloseFds, if_neg hp] at h
  obtain ⟨hcur, hidle, hterm⟩ := closeFds_steady h
  exact ⟨hcur, hidle, fun i hi => hterm i (Or.inl (List.mem_range.mpr hi))⟩

end Closing

section Killing

/-- `scheduler_kill_by_pid` takes the process out of the queue of its state. -/
theorem Placed.leave (h : Placed k k.current Q) (p : ℕ) :
    ∃ l Q', (if k.state p = .ready then processQueueRemove k (.ready (k.priority p)) p
        else if k.state p = .blocked then processQueueRemove k .blocked p
        else some k) = some (k.relink l) ∧
      Rings l.next l.prev l.queues Q' ∧
      Q' .blocked = (Q .blocked).filter (fun a => decide (a ≠ p)) ∧
      (∀ q, q ≠ .finished → p ∉ Q' q) ∧ ∀ q, ∀ a ∈ Q' q, a ∈ Q q := by
  have hsub (q₀ : QueueId) : ∀ q, ∀ a ∈ update Q q₀ ((Q q₀).erase p) q, a ∈ Q q := by
    intro q a hm
    by_cases hq : q = q₀
    · subst hq
      rw [Function.update_self] at hm
      exact List.mem_of_mem_erase hm
    · rwa [Function.update_of_ne hq] at hm
  have herase (q : QueueId) : (Q q).erase p = (Q q).filter fun a => decide (a ≠ p) := by
    rw [(h.rings.list q).nodup.erase_eq_filter]
    exact List.filter_congr fun a _ => by simp [bne, beq_eq_decide]
  have hkeep (hout : p ∉ Q .blocked) : Q .blocked = (Q .blocked).filter fun a => decide (a ≠ p) := by
    rw [← herase, List.erase_of_not_mem hout]
  have hgone (q₀ : QueueId) (hfree : ∀ q, q ≠ q₀ → q ≠ .finished → p ∉ Q q) :
      ∀ q, q ≠ .finished → p ∉ update Q q₀ ((Q q₀).erase p) q := by
    intro q hq hm
    rw [mem_lift (h.rings.list q₀).nodup] at hm
    by_cases hqq : q = q₀
    · exact hm.2 ⟨rfl, hqq⟩
    · exact hfree q hqq hq hm.1
  by_cases hr : k.state p = .ready
  · rw [if_pos hr]
    obtain ⟨nx, pv, qs, heq, hrings⟩ := processQueueRemove_spec (q := .ready (k.priority p)) (p := p)
      h.rings
    refine ⟨⟨nx, pv, qs⟩, _, heq, hrings, ?_, hgone _ fun q hq _ => h.free_of_ready hr hq, hsub _⟩
    rw [Function.update_of_ne (by simp)]
    exact hkeep (h.not_mem (q := .blocked) (by simp [hr, QueueId.state]))
  rw [if_neg hr]
  by_cases hb : k.state p = .blocked
  · rw [if_pos hb]
    obtain ⟨nx, pv, qs, heq, hrings⟩ := processQueueRemove_spec (q := .blocked) (p := p) h.rings
    refine ⟨⟨nx, pv, qs⟩, _, heq, hrings, ?_, hgone _ fun q hq _ => h.free_of_blocked hb hq, hsub _⟩
    rw [Function.update_self, herase]
  · rw [if_neg hb]
    refine ⟨⟨k.queueNext, k.queuePrev, k.queues⟩, Q, rfl, h.rings,
      hkeep (h.not_mem (q := .blocked) hb), fun q hq => ?_, fun _ _ hm => hm⟩
    cases q with
    | ready pr => exact h.not_mem (q := .ready pr) hr
    | blocked => exact h.not_mem (q := .blocked) hb
    | finished => exact absurd rfl hq

/-- A kill returns, and only takes the killed process out of the queue of blocked ones. -/
theorem WellFormed.kill (W : WellFormed k₁ Q) (hL : BlockedOn k₁ p L) (ha : k₁.allocated p = true)
    (hclose : processCloseFds k p = some k₁) :
    ∃ k', killProcess k p = some k' ∧
      (k'.queues .blocked).size = ((Q .blocked).filter fun a => decide (a ≠ p)).length ∧
      (L = [] → WakesCleanly p L Q k') := by
  have hv := W.placed.valid p ha
  obtain ⟨fg, hfg⟩ : ∃ fg, (if parentTakesForeground k₁ p then
      { k₁ with isForeground := update k₁.isForeground (k₁.parent p) true } else k₁) =
        { k₁ with isForeground := fg } := by
    split
    · exact ⟨_, rfl⟩
    · exact ⟨k₁.isForeground, rfl⟩
  have hplaced : Placed { k₁ with isForeground := fg } k₁.current Q :=
    ⟨W.placed.rings, W.placed.members, W.placed.valid⟩
  obtain ⟨l, Q₁, hleave, hrings, hblocked, hgone, hsub⟩ := hplaced.leave p
  obtain ⟨l₂, Q₂, hwake, hrings₂, hnil, -, hsame, horigin⟩ := RingsBesides.wakeWaiters
    (k := { k₁ with
      isForeground := fg
      state := update k₁.state p .finished }.relink l) addressCount
    (Rings.besides hrings) (Function.update_self ..) hL.chain (hL.length_lt W.placed) fun w hw => by
      obtain ⟨hwp, hlt, hfree⟩ := hL.free W.placed w hw
      refine ⟨hwp, hlt, fun q hm => hfree q ?_⟩
      by_cases hq : q = .blocked
      · subst hq
        rw [Function.update_self] at hm
        cases hm
      · rw [Function.update_of_ne hq] at hm ⊢
        exact hsub q w hm
  have hout : ∀ q, q ≠ .finished → p ∉ Q₂ q := fun q hq hm => by
    rcases horigin q p hm with hm | hm
    · by_cases hqb : q = .blocked
      · subst hqb
        rw [Function.update_self] at hm
        cases hm
      · rw [Function.update_of_ne hqb] at hm
        exact hgone q hq hm
    · exact (hL.blocked p hm).2.1 rfl
  obtain ⟨l₃, hpush, -, hsame₃⟩ := RingsBesides.push
    (k := { k₁ with
      isForeground := fg
      state := setAll L .ready (update k₁.state p .finished)
      waitersHead := update k₁.waitersHead p 0
      waiterNext := setAll L 0 k₁.waiterNext
      waitingOnPid := setAll L 0 k₁.waitingOnPid }.relink l₂)
    (q := .finished) hrings₂ hnil (by simp) hv.1 hv.2 hout
  have hrun : killProcess k p = some (if p = k₁.current then
      { { k₁ with
          isForeground := fg
          state := setAll L .ready (update k₁.state p .finished)
          waitersHead := update k₁.waitersHead p 0
          waiterNext := setAll L 0 k₁.waiterNext
          waitingOnPid := setAll L 0 k₁.waitingOnPid }.relink l₃ with needResched := true }
      else { k₁ with
        isForeground := fg
        state := setAll L .ready (update k₁.state p .finished)
        waitersHead := update k₁.waitersHead p 0
        waiterNext := setAll L 0 k₁.waiterNext
        waitingOnPid := setAll L 0 k₁.waitingOnPid }.relink l₃) := by
    rw [killProcess, hclose, Option.bind_eq_bind, Option.bind_some]
    simp only [hfg]
    rw [hleave]
    simp only [Option.bind_some]
    rw [hwake]
    simp only [Option.bind_some]
    rw [hpush, Option.bind_some]
  refine ⟨_, hrun, ?_, fun hnone => ?_⟩
  · have hsize : (l₃.queues .blocked).size = (Q₁ .blocked).length := by
      rw [hsame₃]
      show (l₂.queues .blocked).size = _
      rw [hsame]
      exact (hrings.list .blocked).size_eq
    rw [← hblocked, ← hsize]
    split <;> rfl
  · subst hnone
    have hnil₀ : k₁.waitersHead p = 0 := hL.chain
    obtain ⟨nx, pv, qs, hpush₀, hrings₀⟩ := processQueuePush_spec
      (k := { k₁ with
        isForeground := fg
        state := update k₁.state p .finished }.relink l) hrings hv.1 hv.2 hgone
    have hrun₀ : killProcess k p = some (if p = k₁.current then
        { { k₁ with
            isForeground := fg
            state := update k₁.state p .finished }.relink ⟨nx, pv, qs⟩ with needResched := true }
        else { k₁ with
          isForeground := fg
          state := update k₁.state p .finished }.relink ⟨nx, pv, qs⟩) := by
      rw [killProcess, hclose, Option.bind_eq_bind, Option.bind_some]
      simp only [hfg]
      rw [hleave]
      simp only [Option.bind_some]
      rw [wakeWaiters_none (by exact hnil₀), Option.bind_some, hpush₀, Option.bind_some]
    rw [← Option.some_inj.mp (hrun₀.symm.trans hrun)]
    refine ⟨update Q₁ .finished ((Q₁ .finished).erase p ++ [p]), ?_, ?_, by simp⟩
    · split <;> exact hrings₀
    · rw [Function.update_of_ne (by simp), hblocked]
      simp

end Killing

section Finishing

/-- The state after `scheduler_finish_current`, when the descriptors are closed. -/
abbrev finishedKernel (k : Kernel) : Kernel :=
  { k with
    state := update k.state k.current .finished
    needResched := true }

theorem schedulerFinishCurrent_eq (hidle : k.current ≠ k.idleP) (h0 : k.current ≠ 0)
    (hclose : processCloseFds k k.current = some k₁) :
    schedulerFinishCurrent k = some (finishedKernel k₁) := by
  rw [schedulerFinishCurrent, if_neg (not_or.mpr ⟨h0, hidle⟩), hclose]
  rfl

theorem WellFormed.finish (W : WellFormed k Q) (hrun : k.state k.current = .running)
    (hidle : k.current ≠ k.idleP) (hclosed : ∀ i < maxFds, k.fdType k.current i = .terminal) :
    WellFormed (finishedKernel k) Q := by
  have hfree := W.placed.free_of_running hrun
  have hmem : Members k.allocated (update k.state k.current .finished) k.priority k.current ∅ Q :=
    ((W.placed.members.exempt k.current).setState .finished).settle hfree (by simp) (by simp)
  refine ⟨⟨W.placed.rings, hmem, W.placed.valid⟩, W.held, W.current, W.idle, ?_, W.idle_priority,
    W.base_le, fun a ha hs i hi => ?_⟩
  · show update k.state k.current .finished k.idleP = .running
    rw [Function.update_of_ne (Ne.symm hidle), W.idle_running]
  · rcases eq_or_ne a k.current with rfl | hne
    · exact hclosed i hi
    · refine W.closed a ha ?_ i hi
      rwa [← Function.update_of_ne hne .finished k.state]

theorem dispatch_links (k : Kernel) (next : ℕ) :
    (dispatch k next).queueNext = k.queueNext ∧ (dispatch k next).queuePrev = k.queuePrev ∧
      (dispatch k next).queues = k.queues ∧ (dispatch k next).fdType = k.fdType := by
  rw [dispatch]
  dsimp only
  split <;> exact ⟨rfl, rfl, rfl, rfl⟩

/-- What the rest of a switch needs once the interrupted process is saved: the queue of blocked
processes does not count, and the idle process is in no ready queue. -/
structure Saved (k : Kernel) (Q : QueueId → List ℕ) : Prop where
  besides : RingsBesides k Q
  uncounted : Q .blocked = []
  closed : ∀ a ∈ Q .finished, ∀ i < maxFds, k.fdType a i = .terminal
  idle : ∀ pr, k.idleP ∉ Q (.ready pr)

theorem RingsBesides.head_eq (h : RingsBesides k Q) (hq : q ≠ .blocked) :
    (k.queues q).head = (Q q).head?.getD 0 := by
  have hhead := (h.list q).head_eq
  rwa [Function.update_of_ne hq] at hhead

/-- Behind `save_context` the switch returns, and dispatches the idle process only if the ready
queues are empty. -/
theorem Saved.switch (S : Saved k₁ Q)
    (hsave : saveContext { k with needResched := false } k.current frame = some k₁) :
    ∃ o, SoKernel.switchContext k frame = some o ∧ o.kernel.queues .blocked = k₁.queues .blocked ∧
      (o.kernel.current = o.kernel.idleP → ∀ pr, (o.kernel.queues (.ready pr)).head = 0) := by
  obtain ⟨p, l, Q₁, hpop, hrings, hnil, hfin, hsame, hcases⟩ := S.besides.popFirst [2, 1, 0]
    S.uncounted
  generalize hchoice : (if p = 0 then k₁.idleP else p) = next
  obtain ⟨hnext, hprev, hqueues, hfds⟩ := dispatch_links (k₁.relink l) next
  obtain ⟨dead, k', hcollect, hdone, hcur, hidle, Q₂, hrings₂, hothers⟩ := RingsBesides.collect
    (k := dispatch (k₁.relink l) next) maxFinishedCollect (Q := Q₁)
    (by rw [RingsBesides, hnext, hprev, hqueues]; exact hrings) hnil
    (by rw [hfds, hfin]; exact S.closed)
  refine ⟨⟨k', none, some next, dead, []⟩, ?_, ?_, fun hsleep pr => ?_⟩
  · rw [SoKernel.switchContext, hsave]
    simp only [Option.bind_eq_bind, Option.bind_some, readyQueuePopHighest, hpop]
    rw [hchoice, hcollect, Option.bind_some]
  · exact (hdone.trans (congrFun hqueues _)).trans hsame
  · have hlast : next = k₁.idleP := by
      have hcur' : (dispatch (k₁.relink l) next).current = next := by
        rw [dispatch]
      have hidle' : (dispatch (k₁.relink l) next).idleP = k₁.idleP := by
        rw [dispatch]
        dsimp only
        split <;> rfl
      rw [← hcur', ← hidle', ← hcur, ← hidle]
      exact hsleep
    rcases hcases with ⟨-, rfl, hempty⟩ | ⟨pr', hmem⟩
    · rw [hrings₂.head_eq (by simp), hothers _ (by simp), hempty pr (mem_priorities pr)]
      rfl
    · rw [if_neg (S.besides.ne_zero hmem), hlast] at hchoice
      exact absurd (hchoice ▸ hmem) (S.idle pr')

/-- Saving a finished process leaves the queue of blocked processes as it is. -/
theorem WellFormed.save_finished (W : WellFormed k Q) (hs : k.state k.current = .finished)
    (hL : BlockedOn k k.current L) (frame : Frame) :
    ∃ k₁ Q₁, saveContext { k with needResched := false } k.current frame = some k₁ ∧
      k₁.queues .blocked = k.queues .blocked ∧ Saved k₁ Q₁ := by
  have hv := W.placed.valid _ W.current
  obtain ⟨fg, kb, sems, hclear, -⟩ := leaveForeground_spec
    { k with
      needResched := false
      rsp := update k.rsp k.current frame.rsp
      rbp := update k.rbp k.current (frame.word 10) } k.current
  obtain ⟨l, Q₁, hwake, hrings, hnil, hfin, hsame, horigin⟩ := RingsBesides.wakeWaiters
    (k := { k with
      needResched := false
      rsp := update k.rsp k.current frame.rsp
      rbp := update k.rbp k.current (frame.word 10)
      isForeground := fg
      keyboard := kb
      semaphores := sems }) addressCount (Rings.besides W.placed.rings)
    (Function.update_self ..) hL.chain (hL.length_lt W.placed) (hL.free W.placed)
  -- a process in the queues was there before or is one of the waiters
  have hfrom : ∀ q, q ≠ .blocked → ∀ a ∈ Q₁ q, a ∈ Q q ∨ a ∈ L := by
    intro q hq a ha
    have ha' := horigin q a ha
    rwa [Function.update_of_ne hq] at ha'
  have hout : ∀ q, q ≠ .finished → k.current ∉ Q₁ q := by
    intro q hq hm
    by_cases hqb : q = .blocked
    · rw [hqb, hnil] at hm
      cases hm
    · rcases hfrom q hqb _ hm with hm | hm
      · exact W.placed.free_of_finished hs hq hm
      · exact (hL.blocked _ hm).1 rfl
  obtain ⟨l₂, hpush, hrings₂, hsame₂⟩ := RingsBesides.push
    (k := { k with
      needResched := false
      rsp := update k.rsp k.current frame.rsp
      rbp := update k.rbp k.current (frame.word 10)
      isForeground := fg
      keyboard := kb
      semaphores := sems
      waitersHead := update k.waitersHead k.current 0
      waiterNext := setAll L 0 k.waiterNext
      waitingOnPid := setAll L 0 k.waitingOnPid
      state := setAll L .ready k.state }.relink l) (q := .finished) hrings hnil (by simp) hv.1 hv.2 hout
  refine ⟨_, _, ?_, hsame₂.trans hsame, hrings₂, ?_, fun a ha => ?_, fun pr hm => ?_⟩
  · simp only [saveContext, if_neg hv.1, hs, hclear, Option.bind_eq_bind, Option.bind_some]
    rw [hwake, Option.bind_some, hpush]
  · rw [Function.update_of_ne (by simp), hnil]
  · rw [Function.update_self, List.mem_append, hfin, Function.update_of_ne (by simp)] at ha
    have hdead : k.allocated a = true ∧ k.state a = .finished := by
      rcases ha with ha | ha
      · exact W.placed.members.finished a (by simp) (List.mem_of_mem_erase ha)
      · rw [List.mem_singleton.mp ha]
        exact ⟨W.current, hs⟩
    exact W.closed a hdead.1 hdead.2
  · rw [Function.update_of_ne (by simp)] at hm
    rcases hfrom (.ready pr) (by simp) _ hm with hm | hm
    · exact W.placed.free_of_running W.idle_running _ hm
    · have hblocked := (hL.blocked _ hm).2.2.2.1
      rw [W.idle_running] at hblocked
      cases hblocked

/-- The switch away from a finished process leaves the queue of blocked processes as it is. -/
theorem WellFormed.switch_blocked {o : Outcome} (W : WellFormed k Q)
    (hs : k.state k.current = .finished) (hL : BlockedOn k k.current L)
    (h : SoKernel.switchContext k frame = some o) : o.kernel.queues .blocked = k.queues .blocked := by
  obtain ⟨k₁, Q₁, hsave, hsame, S⟩ := W.save_finished hs hL frame
  obtain ⟨o', hswitch, hdone, -⟩ := S.switch hsave
  cases h.symm.trans hswitch
  exact hdone.trans hsame

theorem Chosen.blocked {idle : ℕ} (h : Chosen idle Q next Q') : Q' .blocked = Q .blocked := by
  cases h with
  | first head highest => exact Function.update_of_ne (by simp) _ _
  | idle empty => rfl

/-- The call of `schedule` that follows `scheduler_finish_current`. -/
theorem WellFormed.schedule_finished {o : Outcome} (W : WellFormed k Q)
    (hs : k.state k.current = .finished) (hL : BlockedOn k k.current L)
    (h : schedule k frame = some o) :
    (o.kernel.queues .blocked).size = (Q .blocked).length := by
  obtain ⟨l, prio, wt, Q₁, hage, W₁, haged⟩ := W.applyAging
  have hswitch : mustSwitch ({ k with
      priority := prio
      waitTicks := wt }.relink l) = true := by
    simp only [mustSwitch, ne_eq, Kernel.relink, hs]
    rfl
  rw [schedule, if_neg W.current_ne, hage, Option.bind_eq_bind, Option.bind_some, if_pos hswitch] at h
  have hsame := W₁.switch_blocked hs ⟨hL.chain, hL.blocked⟩ h
  rw [hsame, (W₁.placed.rings.list .blocked).size_eq, haged.blocked]

/-- Ending the current process returns to a clean state if nobody waits for it. -/
theorem WellFormed.finish_cleanly (W : WellFormed k Q) (hrun : k.state k.current = .running)
    (hidle : k.current ≠ k.idleP) (hclosed : ∀ i < maxFds, k.fdType k.current i = .terminal)
    (hL : BlockedOn k k.current []) (frame : Frame) :
    ∃ o, schedule (finishedKernel k) frame = some o ∧ WakesCleanly k.current [] Q o.kernel := by
  have W' := W.finish hrun hidle hclosed
  have hs : (finishedKernel k).state (finishedKernel k).current = .finished := Function.update_self ..
  obtain ⟨k₂, Q₂, o, -, -, haged, hcur, hstate, -, hcall, hstay, hgo⟩ :=
    schedule_meets_specification W' (Or.inr (Or.inr ⟨hs, hL.chain⟩)) frame
  refine ⟨o, hcall, ?_⟩
  have hs₂ : k₂.state k₂.current = .finished := by rw [hcur, hstate, hs]
  cases hd : o.dispatched with
  | none =>
      have hrun' := (hstay hd).2.2.1
      rw [hs₂] at hrun'
      cases hrun'
  | some next =>
      obtain ⟨Q₃, hchosen, hswitched⟩ := hgo next hd
      refine ⟨_, hswitched.wellFormed.placed.rings, ?_, by simp⟩
      have hout : k.current ∉ Q .blocked := W.placed.free_of_running hrun .blocked
      rw [Function.update_of_ne (by simp), hchosen.blocked]
      simp only [filedQueues, hs₂]
      rw [Function.update_of_ne (by simp), haged.blocked]
      refine (List.filter_eq_self.mpr fun a ha => ?_).symm
      have hne : a ≠ k.current := fun e => hout (e ▸ ha)
      simp [hne]

end Finishing

section Result

/-- Ending a process, either by itself or by a kill, wakes its waiters cleanly exactly if it has
none. The queues are those after its descriptors have been closed, which can wake other
processes. -/
theorem waiters_wake_cleanly_iff (hclose : processCloseFds k p = some k₁) (W : WellFormed k₁ Q)
    (hL : BlockedOn k₁ p L) :
    (p = k.current → p ≠ k.idleP → k₁.state p = .running → ∀ frame,
      ((∃ k₂ o, schedulerFinishCurrent k = some k₂ ∧ schedule k₂ frame = some o ∧
        WakesCleanly p L Q o.kernel) ↔ L = [])) ∧
    ∀ pid, schedulerFindByPid k pid = some p → p ≠ 0 → k₁.allocated p = true →
      ((∃ k', schedulerKillByPid k pid = some (1, k') ∧ WakesCleanly p L Q k') ↔ L = []) := by
  refine ⟨fun hp hidle hrun frame => ?_, fun pid hfind hp0 ha => ?_⟩
  · have h0 : k.current ≠ 0 := fun h0 => by
      rw [processCloseFds, hp, if_pos h0] at hclose
      cases hclose
      exact W.current_ne h0
    obtain ⟨hcur, hidleP, hclosed⟩ := processCloseFds_steady (hp ▸ h0) hclose
    obtain rfl : p = k₁.current := hp.trans hcur.symm
    have hidle₁ : k₁.current ≠ k₁.idleP := hidleP ▸ hidle
    have hfinish := schedulerFinishCurrent_eq (hp ▸ hidle) h0 (hp ▸ hclose)
    have hnot := W.placed.free_of_running hrun .blocked
    constructor
    · rintro ⟨k₂, o, hcall, hsched, hclean⟩
      rw [hfinish, Option.some_inj] at hcall
      subst hcall
      have hL' : BlockedOn (finishedKernel k₁) (finishedKernel k₁).current L :=
        ⟨hL.chain, fun w hw => by
          obtain ⟨hwc, hwp, hwa, hws, hwp'⟩ := hL.blocked w hw
          refine ⟨hwc, hwp, hwa, ?_, hwp'⟩
          show update k₁.state k₁.current .finished w = .blocked
          rw [Function.update_of_ne hwc, hws]⟩
      have hsize := (W.finish hrun hidle₁ hclosed).schedule_finished
        (Function.update_self ..) hL' hsched
      rw [hclean.length] at hsize
      refine eq_nil_of_length_filter (p := k₁.current) (M := Q .blocked) (fun w hw =>
        ⟨hL.mem_queue W hw, (hL.blocked w hw).2.1⟩) (hsize.trans ?_)
      rw [List.filter_eq_self.mpr fun a ha => ?_]
      have hne : a ≠ k₁.current := fun e => hnot (e ▸ ha)
      simp [hne]
    · rintro rfl
      obtain ⟨o, hsched, hclean⟩ := W.finish_cleanly hrun hidle₁ hclosed hL frame
      exact ⟨_, o, hfinish, hsched, hclean⟩
  · obtain ⟨k', hkill, hsize, hclean⟩ := W.kill hL ha hclose
    have hcall : schedulerKillByPid k pid = some (1, k') := by
      rw [schedulerKillByPid, hfind, Option.bind_eq_bind, Option.bind_some, if_neg hp0, hkill]
      rfl
    refine ⟨?_, fun hnone => ⟨k', hcall, hclean hnone⟩⟩
    rintro ⟨k'', hcall', hclean'⟩
    rw [hcall, Option.some_inj, Prod.mk.injEq] at hcall'
    obtain rfl := hcall'.2
    rw [hclean'.length] at hsize
    exact eq_nil_of_length_filter (fun w hw => ⟨hL.mem_queue W hw, (hL.blocked w hw).2.1⟩) hsize

/-- Nobody waits for the shell when it is killed after the start. -/
theorem waiters_wake_cleanly_iff_boot :
    ∃ k Q k', bootSystem 16 8192 48 12288 1 = some k ∧ WellFormed k Q ∧
      schedulerKillByPid k 2 = some (1, k') ∧ WakesCleanly 48 [] Q k' := by
  have hlt : 48 < addressCount := by
    unfold addressCount
    decide
  have hcalc : ((bootSystem 16 8192 48 12288 1).map fun k =>
      decide ((schedulerFindByPid k 2 = some 48 ∧ k.allocated 48 = true ∧ k.waitersHead 48 = 0) ∧
        ∀ i ∈ List.range maxFds, k.fdType 48 i = .terminal)) = some true := by
    decide +kernel
  obtain ⟨k, hboot, hvalue⟩ := Option.map_eq_some_iff.mp hcalc
  obtain ⟨⟨hfind, halloc, hnone⟩, hterm⟩ := of_decide_eq_true hvalue
  obtain ⟨Q, W⟩ := bootSystem_wellFormed ⟨by decide, by decide, by decide, by decide, by decide,
    by decide⟩ (by omega) hlt hboot
  have hclose : processCloseFds k 48 = some k := by
    rw [processCloseFds, if_neg (by decide)]
    exact closeFds_terminal _ hterm
  obtain ⟨k', hkill, hclean⟩ := ((waiters_wake_cleanly_iff hclose W (L := [])
    ⟨hnone, by simp⟩).2 2 hfind (by decide) halloc).mpr rfl
  exact ⟨k, Q, k', hboot, W, hkill, hclean⟩

/-- The shell waits for its child when a third process kills the child: the shell is still the
head of the queue of blocked processes afterwards. -/
theorem killed_child_keeps_waiter_blocked :
    ∃ k₀ steps k k', initScheduler bootKernel 16 8192 = some k₀ ∧ Run k₀ steps k ∧
      steps.map Step.call =
        [.spawn ⟨1, 0, 2, true, 0, 0, 48, 12288⟩, .tick ⟨0, fun _ => 0⟩,
          .spawn ⟨1, 48, 2, true, 0, 0, 64, 32768⟩, .spawn ⟨1, 48, 2, false, 0, 0, 80, 65536⟩,
          .wait 3 ⟨0, fun _ => 0⟩, .yield ⟨0, fun _ => 0⟩] ∧
      BlockedOn k 64 [48] ∧ schedulerKillByPid k 3 = some (1, k') ∧
      ∀ Q, ¬WakesCleanly 64 [48] Q k' := by
  have hcalc : ((initScheduler bootKernel 16 8192).bind fun k₀ =>
      (execAll k₀ [.spawn ⟨1, 0, 2, true, 0, 0, 48, 12288⟩, .tick ⟨0, fun _ => 0⟩,
          .spawn ⟨1, 48, 2, true, 0, 0, 64, 32768⟩, .spawn ⟨1, 48, 2, false, 0, 0, 80, 65536⟩,
          .wait 3 ⟨0, fun _ => 0⟩, .yield ⟨0, fun _ => 0⟩]).bind fun k =>
        (schedulerKillByPid k 3).map fun r =>
          (decide ((k.waitersHead 64 = 48 ∧ k.waiterNext 48 = 0) ∧ k.current ≠ 48 ∧
            k.allocated 48 = true ∧ k.state 48 = .blocked ∧ k.waitingOnPid 48 = k.pid 64), r.1,
            (r.2.queues .blocked).head)) = some (true, 1, 48) := by
    decide +kernel
  obtain ⟨k₀, hinit, h₁⟩ := Option.bind_eq_some_iff.mp hcalc
  obtain ⟨k, hall, h₂⟩ := Option.bind_eq_some_iff.mp h₁
  obtain ⟨⟨r, k'⟩, hkill, h₃⟩ := Option.map_eq_some_iff.mp h₂
  obtain ⟨steps, run, hcalls⟩ := Run.of_execAll hall
  simp only [Prod.mk.injEq] at h₃
  obtain ⟨hvalue, rfl, hhead⟩ := h₃
  obtain ⟨⟨hwaiters, hnext⟩, hcur, ha, hs, hpid⟩ := of_decide_eq_true hvalue
  refine ⟨k₀, steps, k, k', hinit, run, hcalls, ⟨⟨hwaiters, by decide, hnext⟩, ?_⟩, hkill, ?_⟩
  · intro w hw
    obtain rfl := List.mem_singleton.mp hw
    exact ⟨Ne.symm hcur, by decide, ha, hs, hpid⟩
  · rintro Q ⟨Q', hrings, hblocked, -⟩
    have hfirst := (hrings.list .blocked).head_eq
    rw [hhead, hblocked] at hfirst
    cases hL : (Q .blocked).filter fun a => decide (a ≠ 64 ∧ a ∉ [48]) with
    | nil =>
        rw [hL] at hfirst
        cases hfirst
    | cons x M =>
        rw [hL, List.head?_cons, Option.getD_some] at hfirst
        have hmem : x ∈ (Q .blocked).filter fun a => decide (a ≠ 64 ∧ a ∉ [48]) := by
          rw [hL]
          exact List.mem_cons_self
        simp [← hfirst] at hmem

end Result
end SoKernel
