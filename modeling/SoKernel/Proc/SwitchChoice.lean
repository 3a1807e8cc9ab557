import SoKernel.Proc.PickQueues

/-!
# The choice of the next process by the queues

`schedule` with the queues of the kernel is the open switch at a choice that the queues make, as
long as the ready queues and the queue of finished processes are lists of such processes before
the switch and no push of the switch links them with something else.
-/

namespace SoKernel

open Function (update)

variable {k k' : Kernel} {Q : QueueId → List ℕ} {p : ℕ} {F dead : List ℕ} {frame : Frame} {o : Outcome}

section Condition

/-- Every process lies in memory. -/
def Addressed (k : Kernel) : Prop := ∀ p, k.allocated p = true → p < addressCount

/-- The state before `schedule`. The ready queues and the queue of finished processes are lists of
such processes, the neighbours of a blocked current process in the queue of blocked processes are
in none of them, and the waiters of a finished current process have not finished. -/
def SwitchSafe (k : Kernel) : Prop :=
  ∃ Q, Pickable k Q ∧
    (k.state k.current = .blocked → ∀ p ∈ blockedNeighbours k k.current, Unlisted Q p) ∧
    (k.state k.current = .finished → ∀ L, WakeList k.waiterNext (k.waitersHead k.current) L →
      ∀ w ∈ L, Wakeable k w)

/-- The current process and the idle process exist, and those that finished have closed their
descriptors. -/
structure Dispatchable (k : Kernel) : Prop where
  valid : ∀ p, k.allocated p = true → p ≠ 0
  current : k.allocated k.current = true
  idle : k.allocated k.idleP = true ∧ k.state k.idleP ≠ .finished
  closed : ∀ p, k.allocated p = true → k.state p = .finished → ∀ i < maxFds, k.fdType p i = .terminal

/-- The processes are the first ones of the queue of finished processes after `save_context`. -/
def Collects (k : Kernel) (dead : List ℕ) : Prop :=
  ∃ F, QueueList k.queueNext k.queuePrev (k.queues .finished) F ∧
    dead = (savedFinished k k.current F).take maxFinishedCollect

theorem Orderly.dispatchable (ho : Orderly k) : Dispatchable k :=
  ⟨ho.valid, ho.current, ho.idle, fun p _ _ i _ => ho.terminals p i⟩

end Condition

section Parts

theorem Pickable.of_saved (h : Pickable k Q) (hal : k.allocated k.current = true)
    (hp : p ∈ savedFinished k k.current (Q .finished)) : k.allocated p = true ∧ k.state p = .finished := by
  unfold savedFinished at hp
  split at hp
  · rename_i hs
    rcases List.mem_append.mp hp with hp | hp
    · exact h.finished p (List.mem_of_mem_erase hp)
    · rw [List.mem_singleton.mp hp]
      exact ⟨hal, hs⟩
  · exact h.finished p hp

/-- `save_context` puts the current process where it belongs. -/
theorem Pickable.saveContext (h : Pickable k Q) (haddr : Addressed k) (hal : k.allocated k.current = true)
    (hc : k.current ≠ 0)
    (hblocked : k.state k.current = .blocked → ∀ p ∈ blockedNeighbours k k.current, Unlisted Q p)
    (hfinished : k.state k.current = .finished → ∀ L, WakeList k.waiterNext (k.waitersHead k.current) L →
      ∀ w ∈ L, Wakeable k w)
    (step : saveContext k k.current frame = some k') :
    ∃ Q', Pickable k' Q' ∧ Q' .finished = savedFinished k k.current (Q .finished) := by
  rw [SoKernel.saveContext, if_neg hc] at step
  have hframe : Pickable
      { k with
        rsp := update k.rsp k.current frame.rsp
        rbp := update k.rbp k.current (frame.word 10) } Q := ⟨h.rings, h.ready, h.finished⟩
  have hlt := haddr _ hal
  have hstay : k.state k.current ≠ .finished → savedFinished k k.current (Q .finished) = Q .finished :=
    fun hs => if_neg hs
  cases hs : k.state k.current with
  | running =>
      rw [hstay (by simp [hs])]
      have hun := h.unlisted (p := k.current) (by simp [hs]) (by simp [hs])
      simp only [hs] at step
      split at step
      · exact hframe.putReady hal hc hlt (fun q _ => hun q) step
      · exact ⟨Q, Option.some_inj.mp step ▸ hframe, rfl⟩
  | blocked =>
      rw [hstay (by simp [hs])]
      have hun := h.unlisted (p := k.current) (by simp [hs]) (by simp [hs])
      simp only [hs] at step
      exact ⟨Q, hframe.pushBlocked hun (hblocked hs) step, rfl⟩
  | finished =>
      rw [savedFinished, if_pos hs]
      simp only [hs, Option.bind_eq_bind] at step
      obtain ⟨k₁, hclear, hrest⟩ := Option.bind_eq_some_iff.mp step
      obtain ⟨k₂, hwake, hpush⟩ := Option.bind_eq_some_iff.mp hrest
      -- the foreground and the keyboard do not matter for the queues
      obtain ⟨fg, kb, sems, rfl⟩ : ∃ fg kb sems, k₁ =
          { k with
            rsp := update k.rsp k.current frame.rsp
            rbp := update k.rbp k.current (frame.word 10)
            isForeground := fg
            keyboard := kb
            semaphores := sems } := by
        split at hclear
        · rw [keyboardClearBuffer_eq, Option.some_inj] at hclear
          exact ⟨_, _, _, hclear.symm⟩
        · exact ⟨_, _, _, (Option.some_inj.mp hclear).symm⟩
      obtain ⟨L, l, hL, hshape⟩ := wakeWaiters_shape hwake
      have hw := hfinished hs L hL
      have hkept : Pickable
          { k with
            rsp := update k.rsp k.current frame.rsp
            rbp := update k.rbp k.current (frame.word 10)
            isForeground := fg
            keyboard := kb
            semaphores := sems } Q := ⟨h.rings, h.ready, h.finished⟩
      obtain ⟨Q₂, h₂, hfin⟩ := hkept.wakeWaiters addressCount haddr hL hw hwake
      have hself : k.current ∉ L := fun hm => (hw _ hm).2 hs
      have hdead : k₂.state k.current = .finished := by
        rw [hshape]
        exact (setAll_of_not_mem _ _ hself).trans hs
      have hother : ∀ q, q ≠ .finished → k.current ∉ Q₂ q := by
        intro q hq hm
        rcases (h₂.listed hm).2 with ⟨hready, -⟩ | ⟨-, he⟩
        · rw [hdead] at hready
          cases hready
        · exact hq he
      obtain ⟨l', rfl, hl'⟩ := h₂.push (by simp) hc hlt hother hpush
      have hput : ∀ {a q}, a ∈ update Q₂ .finished ((Q₂ .finished).erase k.current ++ [k.current]) q ↔
          if a = k.current then q = .finished else a ∈ Q₂ q := mem_put hother
      refine ⟨_, ⟨hl'.rings, fun i a hm => ?_, fun a hm => ?_⟩, ?_⟩
      · rw [hput] at hm
        split at hm
        · cases hm
        · exact h₂.ready i a hm
      · rw [hput] at hm
        split at hm
        · rename_i ha
          rw [ha]
          refine ⟨?_, hdead⟩
          rw [hshape]
          exact hal
        · exact h₂.finished a hm
      · rw [Function.update_self, hfin]
  | new =>
      rw [hstay (by simp [hs])]
      simp only [hs, Option.some_inj] at step
      exact ⟨Q, step ▸ hframe, rfl⟩
  | ready =>
      rw [hstay (by simp [hs])]
      simp only [hs, Option.some_inj] at step
      exact ⟨Q, step ▸ hframe, rfl⟩

/-- The search for the next process finds a ready one, or none. -/
theorem Pickable.popFirstOf (prs : List Priority) (h : Pickable k Q) (step : popFirstOf k prs = some (p, k')) :
    ∃ l, k' = k.relink l ∧ (p = 0 ∨ k.allocated p = true ∧ k.state p = .ready) ∧
      ∃ Q', Pickable k' Q' ∧ Q' .finished = Q .finished := by
  induction prs generalizing k Q with
  | nil =>
      obtain ⟨rfl, rfl⟩ := Prod.mk.inj (Option.some_inj.mp step)
      exact ⟨⟨k.queueNext, k.queuePrev, k.queues⟩, rfl, Or.inl rfl, Q, h, rfl⟩
  | cons pr prs ih =>
      rw [SoKernel.popFirstOf, Option.bind_eq_bind] at step
      obtain ⟨⟨x, k₁⟩, hpop, hrest⟩ := Option.bind_eq_some_iff.mp step
      obtain ⟨hx, l, rfl, hl⟩ := h.pop (by simp) hpop
      have hpick : Pickable (k.relink l) (update Q (.ready pr) (Q (.ready pr)).tail) := by
        have hsub : ∀ {a q}, a ∈ update Q (.ready pr) (Q (.ready pr)).tail q → a ∈ Q q := by
          intro a q hm
          by_cases hq : q = .ready pr
          · subst hq
            rw [Function.update_self] at hm
            exact List.mem_of_mem_tail hm
          · rwa [Function.update_of_ne hq] at hm
        exact ⟨hl.rings, fun i a hm => h.ready i a (hsub hm), fun a hm => h.finished a (hsub hm)⟩
      have hfin : update Q (.ready pr) (Q (.ready pr)).tail .finished = Q .finished :=
        Function.update_of_ne (by simp) _ _
      dsimp only at hrest
      split at hrest
      · rename_i hx0
        obtain ⟨rfl, rfl⟩ := Prod.mk.inj (Option.some_inj.mp hrest)
        refine ⟨l, rfl, Or.inr ?_, _, hpick, hfin⟩
        cases hL : Q (.ready pr) with
        | nil =>
            rw [hL] at hx
            exact absurd hx hx0
        | cons y M =>
            rw [hL] at hx
            obtain ⟨ha, hs, -⟩ := h.ready pr y (by simp [hL])
            exact (show x = y from hx) ▸ ⟨ha, hs⟩
      · obtain ⟨l', rfl, hp, Q', h', hfin'⟩ := ih hpick hrest
        exact ⟨l', rfl, hp, Q', h', hfin'.trans hfin⟩

theorem bury_relink (k : Kernel) (l : Links) (p : ℕ) : bury (k.relink l) p = (bury k p).relink l := by
  have hunlink : unlinkChild (k.relink l) p = (unlinkChild k p).relink l := by
    unfold unlinkChild
    dsimp only
    split_ifs <;> rfl
  simp only [bury, hunlink]

theorem buryAll_relink (k : Kernel) (l : Links) (dead : List ℕ) :
    dead.foldl bury (k.relink l) = (dead.foldl bury k).relink l := by
  induction dead generalizing k with
  | nil => rfl
  | cons p dead ih => rw [List.foldl_cons, bury_relink, ih, List.foldl_cons]

/-- The loop that collects processes destroys the first ones of the queue. -/
theorem collectLoop_buries (n : ℕ) (hclosed : ∀ p ∈ F, ∀ i < maxFds, k.fdType p i = .terminal)
    (hF : QueueList k.queueNext k.queuePrev (k.queues .finished) F) (hlt : ∀ p ∈ F, p < addressCount)
    (step : collectLoop n k = some (dead, k')) :
    dead = F.take n ∧ ∃ l, k' = (dead.foldl bury k).relink l := by
  induction n generalizing k F dead with
  | zero =>
      obtain ⟨rfl, rfl⟩ := Prod.mk.inj (Option.some_inj.mp step)
      exact ⟨rfl, ⟨k.queueNext, k.queuePrev, k.queues⟩, rfl⟩
  | succ n ih =>
      obtain ⟨k₁, hpop, hreq, hnil, -⟩ := hF.processQueuePop hlt
      rw [collectLoop, hpop, Option.bind_eq_bind, Option.bind_some] at step
      cases F with
      | nil =>
          obtain ⟨rfl, rfl⟩ := Prod.mk.inj (Option.some_inj.mp step)
          obtain rfl := hnil rfl
          exact ⟨rfl, ⟨k₁.queueNext, k₁.queuePrev, k₁.queues⟩, rfl⟩
      | cons x F =>
          have hx0 : x ≠ 0 := hF.ne_zero List.mem_cons_self
          rw [List.head?_cons, Option.getD_some] at step
          dsimp only at step
          rw [if_neg hx0, Option.bind_eq_bind] at step
          obtain ⟨k₂, hdestroy, hrest⟩ := Option.bind_eq_some_iff.mp step
          obtain ⟨⟨rest, k₃⟩, hloop, hlast⟩ := Option.bind_eq_some_iff.mp hrest
          obtain ⟨rfl, rfl⟩ := Prod.mk.inj (Option.some_inj.mp hlast)
          have hlist := hreq.list
          obtain ⟨nx, pv, queue, rfl⟩ := hreq.rest
          have hone : destroyAll [x] (k.relink ⟨nx, pv, update k.queues .finished queue⟩) = _ :=
            destroyAll_eq (by simpa using hclosed x List.mem_cons_self) (by simpa using hx0)
          rw [destroyAll, hdestroy, Option.bind_eq_bind, Option.bind_some, destroyAll, Option.some_inj,
            List.foldl_cons, List.foldl_nil] at hone
          rw [bury_relink] at hone
          subst hone
          obtain ⟨pa, fc, ns, ps, hshape⟩ := bury_shape k x
          obtain ⟨rfl, l, rfl⟩ := ih
            (by rw [hshape]; exact fun p hp => hclosed p (List.mem_cons_of_mem x hp))
            (by rw [hshape]; exact hlist) (fun p hp => hlt p (List.mem_cons_of_mem x hp)) hloop
          refine ⟨rfl, l, ?_⟩
          rw [List.foldl_cons, buryAll_relink]

/-- The loop destroys the first processes of the queue and changes the links besides. -/
theorem collectLoop_destroys (n : ℕ) (hclosed : ∀ p ∈ F, ∀ i < maxFds, k.fdType p i = .terminal)
    (hF : QueueList k.queueNext k.queuePrev (k.queues .finished) F) (hlt : ∀ p ∈ F, p < addressCount)
    (step : collectLoop n k = some (dead, k')) :
    dead = F.take n ∧ ∃ k₁ l, destroyAll dead k = some k₁ ∧ k' = k₁.relink l := by
  obtain ⟨rfl, l, rfl⟩ := collectLoop_buries n hclosed hF hlt step
  exact ⟨rfl, _, l, destroyAll_eq (fun p hp => hclosed p (List.mem_of_mem_take hp))
    fun p hp => hF.ne_zero (List.mem_of_mem_take hp), rfl⟩

end Parts

section Switch

/-- `schedule` goes on with a running current process, or switches as the open switch does at the
choice of the queues. -/
theorem schedule_opens (hd : Dispatchable k) (haddr : Addressed k) (hsafe : SwitchSafe k)
    (step : schedule k frame = some o) :
    (k.state k.current = .running ∧ ∃ s, o.kernel = k.resched s) ∨
      ∃ s ch, SwitchPromise (k.resched s) ch ∧ switchBy (k.resched s) ch = some o.kernel ∧
        Collects k ch.dead := by
  have hc : k.current ≠ 0 := hd.valid _ hd.current
  rw [schedule, if_neg hc, Option.bind_eq_bind] at step
  obtain ⟨k₁, hage, hrest⟩ := Option.bind_eq_some_iff.mp step
  obtain ⟨Q, hQ, hblocked, hfinished⟩ := hsafe
  obtain ⟨Q₁, h₁⟩ := hQ.ageQueues _ hage
  obtain ⟨s, rfl⟩ := h₁.shape
  split at hrest
  swap
  · rename_i hkeep
    refine Or.inl ⟨?_, s, (Option.some_inj.mp hrest) ▸ rfl⟩
    by_contra hs
    exact hkeep (by simp [mustSwitch, hs])
  rw [switchContext, Option.bind_eq_bind] at hrest
  obtain ⟨k₂, hsave, hrest⟩ := Option.bind_eq_some_iff.mp hrest
  obtain ⟨⟨p, k₃⟩, hpop, hrest⟩ := Option.bind_eq_some_iff.mp hrest
  obtain ⟨⟨dead, k₄⟩, hcollect, hlast⟩ := Option.bind_eq_some_iff.mp hrest
  dsimp only at hcollect hlast
  rw [Option.some_inj] at hlast
  subst hlast
  have hk₁ : Pickable { k.resched s with needResched := false } Q₁ :=
    ⟨h₁.pick.rings, h₁.pick.ready, h₁.pick.finished⟩
  have hnear : k.state k.current = .blocked → ∀ p ∈ blockedNeighbours (k.resched s) k.current, Unlisted Q₁ p := by
    intro hs p hp
    have hun : Unlisted Q k.current := hQ.unlisted (by simp [hs]) (by simp [hs])
    exact (h₁.unlisted p).mp (hblocked hs p (h₁.neighbours hun p hp))
  obtain ⟨Q₂, h₂, hfin⟩ := hk₁.saveContext haddr hd.current hc hnear hfinished hsave
  obtain ⟨l, rfl, hp, Q₃, h₃, hfin₃⟩ := h₂.popFirstOf _ hpop
  obtain ⟨L, s', -, hshape⟩ := saveContext_shape (k := { k.resched s with needResched := false }) hc hsave
  generalize hnext : (if p = 0 then (k₂.relink l).idleP else p) = next at hcollect
  have halloc₂ : k₂.allocated = k.allocated := by rw [hshape]
  have hidle₂ : k₂.idleP = k.idleP := by rw [hshape]
  have hidle : k₂.state k₂.idleP ≠ .finished := by
    rw [hidle₂, hshape]
    exact fun hs => hd.idle.2 (of_savedState hs)
  have hchosen : k₂.allocated next = true ∧ (k₂.state next = .ready ∨ next = k₂.idleP) := by
    rw [← hnext]
    split
    · rw [halloc₂, hidle₂]
      exact ⟨hd.idle.1, Or.inr rfl⟩
    · rename_i hp0
      exact (hp.resolve_left hp0).imp_right Or.inl
  have hfinals : Q₃ .finished = savedFinished k k.current (Q .finished) := by
    rw [hfin₃, hfin, h₁.finished]
    rfl
  have hclosed : ∀ p ∈ Q₃ .finished, ∀ i < maxFds, (dispatch (k₂.relink l) next).fdType p i = .terminal := by
    obtain ⟨s₂, hdisp⟩ := dispatch_shape (k₂.relink l) next
    rw [hdisp, hshape, hfinals]
    exact fun p hm => (hQ.of_saved hd.current hm).elim (hd.closed p)
  have hlist : QueueList (dispatch (k₂.relink l) next).queueNext (dispatch (k₂.relink l) next).queuePrev
      ((dispatch (k₂.relink l) next).queues .finished) (Q₃ .finished) := by
    have hlinks := h₃.list (q := .finished) (by simp)
    unfold dispatch
    dsimp only
    split_ifs <;> exact hlinks
  obtain ⟨rfl, k₅, l', hdestroy, rfl⟩ :=
    collectLoop_destroys maxFinishedCollect hclosed hlist (h₃.rings.bounded _) hcollect
  have hdead : ∀ p ∈ (Q₃ .finished).take maxFinishedCollect,
      k₂.allocated p = true ∧ k₂.state p = .finished ∧ p ≠ next := by
    intro p hm
    obtain ⟨ha, hs⟩ := h₃.finished p (List.mem_of_mem_take hm)
    refine ⟨ha, hs, ?_⟩
    rintro rfl
    rcases hchosen.2 with hready | rfl
    · rw [show k₂.state p = .finished from hs] at hready
      cases hready
    · exact hidle hs
  let ch : Choice := ⟨frame, l, next, (Q₃ .finished).take maxFinishedCollect, l'⟩
  have hpromise : SwitchPromise (k.resched s) ch := by
    refine ⟨hc, fun k' hk' => ?_⟩
    obtain rfl := Option.some_inj.mp (hsave.symm.trans hk')
    exact ⟨hchosen.1, hchosen.2, (h₃.list (q := .finished) (by simp)).nodup.sublist (List.take_sublist ..), hdead⟩
  refine Or.inr ⟨s, ch, hpromise, ?_, Q .finished, hQ.list (by simp), ?_⟩
  · rw [switchBy, Option.bind_eq_bind]
    exact Option.bind_eq_some_iff.mpr ⟨k₂, hsave, Option.bind_eq_some_iff.mpr ⟨k₅, hdestroy, rfl⟩⟩
  · change (Q₃ .finished).take maxFinishedCollect = _
    rw [hfinals]

end Switch

end SoKernel
