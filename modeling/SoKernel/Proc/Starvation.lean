import SoKernel.Proc.AgingQueues
import SoKernel.Proc.Places
import SoKernel.Proc.RequestedPriority

/-!
# No ready process starves

A process that waits in a lower ready queue has waited longer after each tick, until `apply_aging`
moves it to the next queue. In the highest queue nobody comes to stand before it, and each context
switch takes the first process out. Two context switches are fewer than `QUANTUM_TICKS` ticks apart.
So a ready process that no call works on is dispatched after a number of ticks that depends on its
priority and on the length of the highest queue only.
-/

namespace SoKernel

open Function (update)

variable {k k₁ k₂ k' : Kernel} {c p d b n : ℕ} {pr : Priority} {X Y : Set ℕ} {L : List ℕ}
variable {Q Q₁ Q₂ Q' : QueueId → List ℕ} {o : Outcome}

section Model

/-- The value of `ticks_elapsed` after `t` ticks. -/
def elapsedAt (t : ℕ) : ℕ :=
  if t % 2 ^ 32 < 2 ^ 31 then t % 2 ^ 32 else t % 2 ^ 32 + (2 ^ 64 - 2 ^ 32)

/-- The last context switch was `d` ticks ago. -/
def SwitchedBefore (k : Kernel) (d : ℕ) : Prop :=
  ∃ t, k.ticks = t + d ∧ k.lastSwitchTick = elapsedAt t

/-- The last context switch was less than a quantum ago. -/
def WithinQuantum (k : Kernel) : Prop := ∃ d < quantumTicks, SwitchedBefore k d

/-- The process has waited longer, or has been promoted. -/
def Older (k k' : Kernel) (p : ℕ) : Prop :=
  k.priority p < k'.priority p ∨
    k'.priority p = k.priority p ∧ k.waitTicks p < k'.waitTicks p ∧ ¬Due k p

/-- The turn of a ready process comes within `b` ticks, if at most `n` processes are in the highest
queue: it has to be promoted first, or the processes before it have to run for a quantum each. -/
inductive Turn (n : ℕ) (k : Kernel) (Q : QueueId → List ℕ) (p b : ℕ) : Prop
  | aging (low : (k.priority p : ℕ) < processPriorityMax)
      (bound : agingThreshold * (processPriorityMax - k.priority p) + quantumTicks * n ≤
        b + min (k.waitTicks p) (agingThreshold - 1))
  | queued {d : ℕ} (high : k.priority p = 2) (switched : SwitchedBefore k d)
      (within : d < quantumTicks)
      (bound : quantumTicks * ((Q (.ready 2)).idxOf p + 1) ≤ b + d)

/-- The timer interrupts of a call. -/
def Call.ticks : Call → ℕ
  | .tick _ => 1
  | _ => 0

/-- The timer interrupts of a run. -/
def ticksIn (steps : List Step) : ℕ := (steps.map fun s => s.call.ticks).sum

/-- The states of the started scheduler. -/
structure Ticking (k : Kernel) : Prop where
  agree : ∃ Q, QueuesAgree k k.current Q
  current : k.current ≠ 0
  clock : WithinQuantum k

end Model

section Aging

theorem Older.of_raised (h : Older k k₁ p) (hle : k₁.priority p ≤ k'.priority p)
    (hwait : k'.priority p = k₁.priority p → k₁.waitTicks p ≤ k'.waitTicks p) : Older k k' p := by
  rcases h with hlt | ⟨hprio, hlt, hdue⟩
  · exact .inl (hlt.trans_le hle)
  · rcases hle.lt_or_eq with hup | hsame
    · exact .inl (hprio ▸ hup)
    · exact .inr ⟨hsame.symm.trans hprio, hlt.trans_le (hwait hsame.symm), hdue⟩

/-- A walk over one of the ready queues at most adds processes at the end of the highest one. -/
theorem Walked.top {N M : List ℕ} {R R' : Priority → List ℕ} (h : Walked pr N M k R k' R')
    (hR : ReadyQueues k R) : ∃ M', R' 2 = R 2 ++ M' := by
  by_cases hpr : (pr : ℕ) + 1 = 2
  · exact ⟨M, h.next 2 hpr.symm⟩
  · refine ⟨[], ?_⟩
    have hafter : unpromoted k k' (R' 2) = R' 2 := by
      refine List.filter_eq_self.mpr fun a ha => decide_eq_true (h.kept a fun hM => ?_)
      obtain ⟨-, -, hval, -⟩ := h.raised a hM
      rw [h.promotes.ready.priority 2 a ha] at hval
      exact hpr hval.symm
    have hbefore : unpromoted k k' (R 2) = R 2 := by
      refine List.filter_eq_self.mpr fun a ha => decide_eq_true (h.kept a fun hM => ?_)
      obtain ⟨hmem, -, hval, -⟩ := h.raised a hM
      have hsame := hR.priority pr a hmem
      rw [hR.priority 2 a ha] at hsame
      rw [← hsame] at hval
      exact absurd (k'.priority a).isLt (by rw [hval]; decide)
    rw [List.append_nil, ← hafter, h.promotes.order 2, hbefore]

theorem Placed.readyQueues (h : Placed k c Q) : ReadyQueues k fun pr => Q (.ready pr) :=
  ⟨fun pr => h.rings.list (.ready pr), fun _ _ hp => h.priority_eq hp,
    fun pr => h.rings.bounded (.ready pr)⟩

theorem ReadyQueues.unique {R R' : Priority → List ℕ} (h : ReadyQueues k R)
    (h' : ReadyQueues k R') : R = R' :=
  funext fun pr => (h.list pr).ring.unique (h'.list pr).ring

/-- A walk over one of the ready queues at most adds processes at the end of the highest one. -/
theorem Placed.agingLoop_top (h : Placed k c Q) (h₁ : Placed k₁ c Q₁)
    (hcall : SoKernel.agingLoop pr (addressCount * addressCount) (k.queues (.ready pr)).head k =
      some k₁) : ∃ M, Q₁ (.ready 2) = Q (.ready 2) ++ M := by
  have hready := h.readyQueues
  have hlist := hready.list pr
  have hlen := hlist.ring.length_lt (hready.bounded pr) addressCount_pos
  have hwhole : Q (.ready pr) = [] ++ Q (.ready pr) ++ [] := by simp
  obtain ⟨k', R', M, heq, hwalked⟩ := hready.agingLoop (addressCount * addressCount)
    (p := (k.queues (.ready pr)).head) hwhole (by rw [List.append_nil]; exact hlist.head_eq)
    (by rw [List.append_nil]; nlinarith) (fun a ha => absurd ha List.not_mem_nil)
    fun _ a ha => absurd ha List.not_mem_nil
  cases hcall.symm.trans heq
  obtain ⟨M', htop⟩ := hwalked.top hready
  rw [hwalked.promotes.ready.unique h₁.readyQueues] at htop
  exact ⟨M', htop⟩

/-- After the walks over some ready queues their processes have waited longer, the others have not
lost anything, and nobody stands before a process of the highest queue that did not before. -/
theorem Placed.ageQueues_older (prs : List Priority) (h : Placed k c Q)
    (hcall : SoKernel.ageQueues k prs = some k') :
    ∃ Q', Placed k' c Q' ∧ (∃ M, Q' (.ready 2) = Q (.ready 2) ++ M) ∧
      (∀ a, k.priority a ≤ k'.priority a) ∧
      (∀ a, k'.priority a = k.priority a → k.waitTicks a ≤ k'.waitTicks a) ∧
      ∀ pr ∈ prs, ∀ a ∈ Q (.ready pr), Older k k' a := by
  induction prs generalizing k Q with
  | nil =>
      cases hcall
      exact ⟨Q, h, ⟨[], (List.append_nil _).symm⟩, fun _ => le_rfl, fun _ _ => le_rfl,
        fun pr hpr => absurd hpr List.not_mem_nil⟩
  | cons pr prs ih =>
      obtain ⟨k₁, Q₁, hloop, h₁, halloc, hstate, hraised, hwaited⟩ := h.agePass pr
      rw [SoKernel.ageQueues, hloop, Option.bind_eq_bind, Option.bind_some] at hcall
      obtain ⟨Q', h', ⟨M', htop'⟩, hraised', hwait', holder'⟩ := ih h₁ hcall
      obtain ⟨M, htop⟩ := h.agingLoop_top h₁ hloop
      have hwait : ∀ a, k₁.priority a = k.priority a → k.waitTicks a ≤ k₁.waitTicks a :=
        fun a hsame => (hwaited.grows a).resolve_left (hsame ▸ lt_irrefl _)
      refine ⟨Q', h', ⟨M ++ M', by rw [htop', htop, List.append_assoc]⟩,
        fun a => (hraised a).trans (hraised' a), fun a hsame => ?_, fun pr' hpr' a ha => ?_⟩
      · have hmid : k₁.priority a = k.priority a := le_antisymm (hsame ▸ hraised' a) (hraised a)
        exact (hwait a hmid).trans (hwait' a (hsame.trans hmid.symm))
      rcases (hraised a).lt_or_eq with hup | hsame
      · exact .inl (hup.trans_le (hraised' a))
      rcases List.mem_cons.mp hpr' with rfl | hpr'
      · have holder : Older k k₁ a := by
          refine .inr ⟨hsame.symm, (hwaited.counted a ha).resolve_left (hsame ▸ lt_irrefl _),
            fun hdue => ?_⟩
          exact absurd (hwaited.promoted a ha hdue.1 hdue.2) (hsame ▸ lt_irrefl _)
        exact holder.of_raised (hraised' a) (hwait' a)
      · obtain ⟨hal, hready, hprio⟩ := (h.members.ready pr' a (by simp)).mp ha
        have hmem : a ∈ Q₁ (.ready pr') :=
          (h₁.members.ready pr' a (by simp)).mpr ⟨halloc ▸ hal, hstate ▸ hready, hsame ▸ hprio⟩
        rcases holder' pr' hpr' a hmem with hup | ⟨hprio', hlt, hdue⟩
        · exact .inl (hsame ▸ hup)
        · have hle := hwait a hsame.symm
          refine .inr ⟨hprio'.trans hsame.symm, hle.trans_lt hlt, fun hd => hdue ⟨?_, hsame ▸ hd.2⟩⟩
          exact hd.1.trans (Nat.succ_le_succ hle)

/-- After `apply_aging` every ready process has waited longer. -/
theorem QueuesAgree.applyAging_older (h : QueuesAgree k c Q) (hcall : applyAging k = some k₁) :
    ∃ l prio wt Q₁, k₁ = ({ k with
          priority := prio
          waitTicks := wt }.relink l) ∧ QueuesAgree k₁ c Q₁ ∧
      (∃ M, Q₁ (.ready 2) = Q (.ready 2) ++ M) ∧
      ∀ a, k.allocated a = true → k.state a = .ready → Older k k₁ a := by
  obtain ⟨l, prio, wt, Q₁, heq, hagree, -, -⟩ := ageQueues_spec [0, 1, 2] h
  obtain rfl := Option.some.inj (hcall.symm.trans heq)
  obtain ⟨Q', h', htop, -, -, holder⟩ := h.placed.ageQueues_older [0, 1, 2] hcall
  obtain rfl := hagree.rings.unique h'.rings
  refine ⟨l, prio, wt, Q₁, rfl, hagree, htop, fun a ha hs => ?_⟩
  have hmem := (h.members.ready (k.priority a) a (by simp)).mpr ⟨ha, hs, rfl⟩
  have hall : ∀ pr : Priority, pr ∈ ([0, 1, 2] : List Priority) := by decide
  exact holder _ (hall _) a hmem

end Aging

section Switching

variable {frame : Frame}

/-- `save_context` works on the interrupted process, unless that is ready again already, and on the
waiters that it wakes. -/
theorem QueuesAgree.saveContext_spares (h : QueuesAgree k k.current Q) (hc : k.current ≠ 0)
    (hL : SaveWakes k k.current L) (hcall : saveContext k k.current frame = some k') :
    Spares {a | a = k.current ∧ k.state a ≠ .ready ∨ a ∈ L} k k' := by
  obtain ⟨hx, hlt⟩ := h.valid _ (h.current hc).1
  have hframe (X : Set ℕ) : Spares X k
      { k with
        rsp := update k.rsp k.current frame.rsp
        rbp := update k.rbp k.current (frame.word 10) } :=
    .of_links rfl rfl rfl rfl rfl rfl (fun _ _ => rfl) (fun _ _ => rfl) (fun _ _ => rfl)
      fun _ _ => rfl
  have hk := h.withFrame (update k.rsp k.current frame.rsp) (update k.rbp k.current (frame.word 10))
  have hsub (hs : k.state k.current ≠ .ready) :
      ({k.current} : Set ℕ) ⊆ {a | a = k.current ∧ k.state a ≠ .ready ∨ a ∈ L} := by
    rintro a rfl
    exact .inl ⟨rfl, hs⟩
  rw [SaveWakes] at hL
  cases hs : k.state k.current with
  | running =>
      simp only [saveContext, if_neg hc, hs] at hcall
      split at hcall
      · have hready := (hframe _).trans (.setState _ k.current .ready k.needResched) hk.rings
        have hpushed := hready.trans
          (.readyPush hk.rings hx hlt (fun q _ => h.free_of_running hs q) hcall) hk.rings
        exact hpushed.mono (hsub (by simp [hs]))
      · cases hcall
        exact hframe _
  | blocked =>
      simp only [saveContext, if_neg hc, hs] at hcall
      have hpushed := (hframe _).trans
        (.push hk.rings hx hlt (fun q hq => h.free_of_blocked hs hq) hcall) hk.rings
      exact hpushed.mono (hsub (by simp [hs]))
  | finished =>
      rw [if_pos hs] at hL
      simp only [saveContext, if_neg hc, hs, Option.bind_eq_bind] at hcall
      obtain ⟨k₁, hclear, hrest⟩ := Option.bind_eq_some_iff.mp hcall
      obtain ⟨k₂, hwake, hpush⟩ := Option.bind_eq_some_iff.mp hrest
      obtain ⟨fg, kb, sems, heq, -⟩ := leaveForeground_spec
        { k with
          rsp := update k.rsp k.current frame.rsp
          rbp := update k.rbp k.current (frame.word 10) } k.current
      cases hclear.symm.trans heq
      have hcleared : Spares {a | a ∈ L} k
          { k with
            rsp := update k.rsp k.current frame.rsp
            rbp := update k.rbp k.current (frame.word 10)
            isForeground := fg
            keyboard := kb
            semaphores := sems } :=
        .of_links rfl rfl rfl rfl rfl rfl (fun _ _ => rfl) (fun _ _ => rfl) (fun _ _ => rfl)
          fun _ _ => rfl
      have h₁ : QueuesAgree
          { k with
            rsp := update k.rsp k.current frame.rsp
            rbp := update k.rbp k.current (frame.word 10)
            isForeground := fg
            keyboard := kb
            semaphores := sems } 0 Q := by
        have h₀ := h.forget (by simp [hs])
        exact ⟨h₀.rings, h₀.members, h₀.valid, h₀.idle, h₀.current, h₀.terminals, h₀.noPipes⟩
      have hL₁ : WaitersAwake
          { k with
            rsp := update k.rsp k.current frame.rsp
            rbp := update k.rbp k.current (frame.word 10)
            isForeground := fg
            keyboard := kb
            semaphores := sems } k.current L := ⟨hL.chain, hL.awake⟩
      have hwoken := hcleared.trans (h₁.wakeWaiters_spares addressCount hL₁ hwake) h₁.rings
      obtain ⟨l, Q₂, heq₂, hagree₂, -, -⟩ := wakeWaiters_spec addressCount h₁ hL₁ (hL.length_lt h)
      cases hwake.symm.trans heq₂
      have hstate : setAll L .ready k.state k.current = .finished := by
        rw [setAll_of_not_mem _ _ fun hm => (hL.awake _ hm).1 rfl, hs]
      have hpushed : Spares {k.current} _ k' :=
        .push hagree₂.rings hx hlt (fun q hq => hagree₂.free_of_finished hstate hq) hpush
      exact (hwoken.mono fun a ha => .inr ha).trans (hpushed.mono (hsub (by simp [hs])))
        hagree₂.rings
  | new =>
      simp only [saveContext, if_neg hc, hs, Option.some_inj] at hcall
      exact hcall ▸ hframe _
  | ready =>
      simp only [saveContext, if_neg hc, hs, Option.some_inj] at hcall
      exact hcall ▸ hframe _

/-- The process of the highest queue that is taken out is not before `p` any more. -/
theorem Chosen.nearer {idle next : ℕ} (h : Chosen idle Q next Q') (hne : next ≠ p)
    (hp : p ∈ Q (.ready 2)) : (Q' (.ready 2)).idxOf p + 1 ≤ (Q (.ready 2)).idxOf p := by
  cases h with
  | @first pr _ rest head highest =>
      obtain rfl : pr = 2 := by
        by_contra hpr
        have hlt : pr < 2 := lt_of_le_of_ne (Fin.le_last pr) hpr
        rw [highest 2 hlt] at hp
        cases hp
      rw [Function.update_self, head, List.idxOf_cons_ne _ hne]
  | idle empty =>
      rw [empty 2] at hp
      cases hp

/-- In a call that wakes the waiters `L`, the other ready processes of the highest queue, except for
the one that is dispatched, come nearer to the front by `i` places. -/
def Nearer (k : Kernel) (Q : QueueId → List ℕ) (L : List ℕ) (o : Outcome) (i : ℕ) : Prop :=
  ∀ p ∉ L, k.state p = .ready → o.dispatched ≠ some p → p ∈ Q (.ready 2) →
    ∀ Q', Rings o.kernel.queueNext o.kernel.queuePrev o.kernel.queues Q' →
      (Q' (.ready 2)).idxOf p + i ≤ (Q (.ready 2)).idxOf p

/-- A context switch that wakes the waiters `L`: the other ready processes, except for the one that
is dispatched, keep what they have and come nearer to the front. -/
structure Passed (k : Kernel) (Q : QueueId → List ℕ) (L : List ℕ) (o : Outcome) : Prop where
  ticks : o.kernel.ticks = k.ticks
  lastSwitch : o.kernel.lastSwitchTick = ticksElapsed k
  kept : ∀ p ∉ L, k.state p = .ready → o.dispatched ≠ some p →
    o.kernel.allocated p = k.allocated p ∧ o.kernel.state p = .ready ∧
      o.kernel.priority p = k.priority p ∧ o.kernel.waitTicks p = k.waitTicks p
  nearer : Nearer k Q L o 1

theorem dispatch_priority {next : ℕ} (hne : p ≠ next) :
    (dispatch k next).priority p = k.priority p := by
  rw [dispatch]
  dsimp only
  split
  · exact Function.update_of_ne hne _ _
  · rfl

/-- The part of a context switch after the interrupted process has been filed. -/
theorem QueuesAgree.dispatch_passed (h : QueuesAgree k 0 Q) (hidle : k.idleP ≠ 0) {x : ℕ}
    {dead : List ℕ} (hpop : readyQueuePopHighest k = some (x, k₂))
    (hcollect : collectLoop maxFinishedCollect (dispatch k₂ (if x = 0 then k₂.idleP else x)) =
      some (dead, o.kernel)) (hnext : o.dispatched = some (if x = 0 then k₂.idleP else x)) :
    Passed k Q [] o := by
  obtain ⟨y, l, next, prio, Q₂, heq, hfirst, hdispatch, -, -, hagree, -⟩ := popDispatch_spec h hidle
  obtain ⟨y', l', Q₂', heq', hrings, hchosen⟩ := readyQueuePopHighest_chosen k.idleP h.rings
  have hresult := hpop.symm.trans heq
  have hresult' := hpop.symm.trans heq'
  simp only [Option.some_inj, Prod.mk.injEq] at hresult hresult'
  obtain ⟨rfl, rfl⟩ := hresult
  obtain ⟨rfl, hlinks⟩ := hresult'
  have hfirst' : (if x = 0 then (k.relink l).idleP else x) = next := hfirst
  rw [hfirst'] at hnext hcollect
  rw [hfirst] at hchosen
  have hprio {p : ℕ} (hne : p ≠ next) : prio p = k.priority p := by
    have hsame := congrArg (fun k => k.priority p) hdispatch
    exact hsame.symm.trans (dispatch_priority hne)
  rw [hdispatch] at hcollect
  have hrings' : Rings (k.relink l).queueNext (k.relink l).queuePrev (k.relink l).queues Q₂' := by
    rw [hlinks]
    exact hrings
  obtain rfl : Q₂ = Q₂' := hagree.rings.unique hrings'
  obtain ⟨l₃, pa, fc, ns, ps, hloop, hplaced⟩ := hagree.placed.collectLoop maxFinishedCollect
    fun a _ i _ => hagree.terminals a i
  have hlast := hcollect.symm.trans hloop
  simp only [Option.some_inj, Prod.mk.injEq] at hlast
  obtain ⟨-, hk'⟩ := hlast
  have hother {p : ℕ} (hnot : o.dispatched ≠ some p) : p ≠ next := fun he => hnot (he ▸ hnext)
  have hready {p : ℕ} (hs : k.state p = .ready) (hne : p ≠ next) :
      update k.state next .running p = .ready := by
    rw [Function.update_of_ne hne, hs]
  refine ⟨?_, ?_, fun p _ hs hnot => ?_, fun p _ hs hnot hp Q' hQ' => ?_⟩
  · rw [hk']
  · rw [hk']
  · have hne := hother hnot
    have hkept : p ∉ (Q₂ .finished).take maxFinishedCollect := fun hm =>
      hagree.free_of_ready (hready hs hne) (by simp) (List.mem_of_mem_take hm)
    rw [hk']
    exact ⟨setAll_of_not_mem _ _ hkept, hready hs hne, hprio hne, Function.update_of_ne hne _ _⟩
  · rw [hk'] at hQ'
    rw [hQ'.unique hplaced.rings, Function.update_of_ne (by simp)]
    exact hchosen.nearer (hother hnot).symm hp

theorem QueuesAgree.switchContext_passed (h : QueuesAgree k k.current Q) (hc : k.current ≠ 0)
    (hL : SaveWakes k k.current L) (hcall : switchContext k frame = some o) : Passed k Q L o := by
  have hk : QueuesAgree { k with needResched := false } k.current Q :=
    ⟨h.rings, h.members, h.valid, h.idle, h.current, h.terminals, h.noPipes⟩
  have hLk : SaveWakes { k with needResched := false } k.current L := hL.congr rfl rfl rfl rfl
  rw [switchContext, Option.bind_eq_bind] at hcall
  obtain ⟨k₁, hsave, hrest⟩ := Option.bind_eq_some_iff.mp hcall
  obtain ⟨⟨x, k₂⟩, hpop, hrest⟩ := Option.bind_eq_some_iff.mp hrest
  obtain ⟨⟨dead, k₃⟩, hcollect, hlast⟩ := Option.bind_eq_some_iff.mp hrest
  have ho := (Option.some.inj hlast).symm
  have hsaved := hk.saveContext_spares hc hLk hsave
  have hspared {p : ℕ} (hpL : p ∉ L) (hs : k.state p = .ready) :
      p ∉ {a | a = k.current ∧ k.state a ≠ .ready ∨ a ∈ L} := by
    rintro (⟨-, hready⟩ | hm)
    · exact hready hs
    · exact hpL hm
  obtain ⟨Q₁, h₁, hidle₁⟩ : ∃ Q₁, QueuesAgree k₁ 0 Q₁ ∧ k₁.idleP = k.idleP := by
    obtain ⟨l, fg, kb, sems, Q₁, heq, hagree, -⟩ := saveContext_spec frame hk hc hLk
    cases hsave.symm.trans heq
    exact ⟨Q₁, hagree, rfl⟩
  have hpassed : Passed k₁ Q₁ [] o :=
    h₁.dispatch_passed (by rw [hidle₁]; exact (h.current hc).2) hpop (by rw [ho]; exact hcollect)
      (by rw [ho])
  refine ⟨hpassed.ticks.trans hsaved.ticks, ?_, fun p hpL hs hnot => ?_,
    fun p hpL hs hnot hp Q' hQ' => ?_⟩
  · rw [hpassed.lastSwitch, ticksElapsed, ticksElapsed, hsaved.ticks]
  all_goals
    have hp' := hspared hpL hs
    have hready : k₁.state p = .ready := (hsaved.state p hp').trans hs
  · obtain ⟨halloc, hstate, hprio, hwait⟩ := hpassed.kept p List.not_mem_nil hready hnot
    exact ⟨halloc.trans (hsaved.allocated p hp'), hstate, hprio.trans (hsaved.priority p hp'),
      hwait.trans (hsaved.waitTicks p hp')⟩
  · obtain ⟨hp₁, hle⟩ := hsaved.places Q Q₁ hk.rings h₁.rings 2 p hp' hp
    exact (hpassed.nearer p List.not_mem_nil hready hnot hp₁ Q' hQ').trans hle

/-- What a call of `schedule` that wakes the waiters `L` does to the clock and to the other ready
processes, except for the one that is dispatched. -/
structure Ticked (k : Kernel) (Q : QueueId → List ℕ) (L : List ℕ) (o : Outcome) : Prop where
  ticks : o.kernel.ticks = k.ticks
  kept : ∀ p ∉ L, k.allocated p = true → k.state p = .ready → o.dispatched ≠ some p →
    o.kernel.allocated p = true ∧ o.kernel.state p = .ready ∧ Older k o.kernel p
  clock : o.kernel.lastSwitchTick = k.lastSwitchTick ∧ ticksSinceSwitch k < quantumTicks ∧
      Nearer k Q L o 0 ∨
    o.kernel.lastSwitchTick = ticksElapsed k ∧ Nearer k Q L o 1

/-- A call of `schedule` goes on with the current process within the quantum, or switches. -/
theorem QueuesAgree.schedule_ticked (h : QueuesAgree k k.current Q) (hc : k.current ≠ 0)
    (hL : SaveWakes k k.current L) (hcall : schedule k frame = some o) : Ticked k Q L o := by
  rw [schedule, if_neg hc, Option.bind_eq_bind] at hcall
  obtain ⟨k₁, hage, hrest⟩ := Option.bind_eq_some_iff.mp hcall
  obtain ⟨l, prio, wt, Q₁, hk₁, h₁, ⟨M, htop⟩, holder⟩ := h.applyAging_older hage
  have hplace : ∀ p ∈ Q (.ready 2), p ∈ Q₁ (.ready 2) ∧
      (Q₁ (.ready 2)).idxOf p = (Q (.ready 2)).idxOf p := by
    intro p hp
    rw [htop]
    exact ⟨List.mem_append_left _ hp, List.idxOf_append_of_mem hp⟩
  split at hrest
  · have hL₁ : SaveWakes k₁ k₁.current L := by
      rw [hk₁]
      exact hL.congr rfl rfl rfl rfl
    have hcur : k₁.current = k.current := by rw [hk₁]
    have hpassed := (hcur ▸ h₁ : QueuesAgree k₁ k₁.current Q₁).switchContext_passed
      (hcur ▸ hc) hL₁ hrest
    have hstate : k₁.state = k.state := by rw [hk₁]
    refine ⟨?_, fun p hpL ha hs hnot => ?_, .inr ⟨?_, fun p hpL hs hnot hp Q' hQ' => ?_⟩⟩
    · rw [hpassed.ticks, hk₁]
    · have hs₁ : k₁.state p = .ready := by rw [hstate, hs]
      obtain ⟨halloc, hready, hprio, hwait⟩ := hpassed.kept p hpL hs₁ hnot
      have ha₁ : k₁.allocated p = true := by rw [hk₁]; exact ha
      exact ⟨halloc.trans ha₁, hready, (holder p ha hs).of_raised hprio.ge fun _ => hwait.ge⟩
    · rw [hpassed.lastSwitch, hk₁]
      rfl
    · have hs₁ : k₁.state p = .ready := by rw [hstate, hs]
      obtain ⟨hp₁, hsame⟩ := hplace p hp
      rw [← hsame]
      exact hpassed.nearer p hpL hs₁ hnot hp₁ Q' hQ'
  · rename_i hkeep
    cases hrest
    obtain ⟨-, -, hquantum, -⟩ := h₁.placed.goes_on (Bool.not_eq_true _ ▸ hkeep)
    refine ⟨?_, fun p hpL ha hs hnot => ⟨?_, ?_, holder p ha hs⟩,
      .inl ⟨?_, ?_, fun p hpL hs hnot hp Q' hQ' => ?_⟩⟩
    · show k₁.ticks = k.ticks
      rw [hk₁]
    · show k₁.allocated p = true
      rw [hk₁]
      exact ha
    · show k₁.state p = .ready
      rw [hk₁]
      exact hs
    · show k₁.lastSwitchTick = k.lastSwitchTick
      rw [hk₁]
    · rw [hk₁] at hquantum
      exact hquantum
    · rw [Rings.unique hQ' h₁.rings, (hplace p hp).2]
      exact le_rfl

end Switching

section Turns

variable {frame : Frame}

theorem elapsedAt_ticks (k : Kernel) : ticksElapsed k = elapsedAt k.ticks := by
  rw [ticksElapsed, elapsedAt]

/-- The difference of two values of the clock is the number of ticks between them, up to the width
of the clock. -/
theorem elapsedAt_sub (t d : ℕ) :
    (elapsedAt (t + d) + 2 ^ 64 - elapsedAt t) % 2 ^ 64 % 2 ^ 32 = d % 2 ^ 32 := by
  unfold elapsedAt
  split <;> split <;> omega

/-- Within a quantum of the last switch there is no need to switch on account of the time. -/
theorem SwitchedBefore.ticksSinceSwitch (h : SwitchedBefore k d) (hd : d < 2 ^ 32) :
    d ≤ SoKernel.ticksSinceSwitch k := by
  obtain ⟨t, ht, hlast⟩ := h
  have hsub := elapsedAt_sub t d
  rw [SoKernel.ticksSinceSwitch, elapsedAt_ticks, ht, hlast]
  rw [Nat.mod_eq_of_lt hd] at hsub
  exact hsub.ge.trans (Nat.mod_le _ _)

theorem Turn.pos (h : Turn n k Q p b) : 0 < b := by
  cases h with
  | aging low bound =>
      simp only [agingThreshold, processPriorityMax, quantumTicks] at low bound
      omega
  | queued high switched within bound =>
      simp only [quantumTicks] at within bound
      omega

theorem Turn.mono {b' : ℕ} (h : Turn n k Q p b) (hb : b ≤ b') : Turn n k Q p b' := by
  cases h with
  | aging low bound => exact .aging low (by omega)
  | queued high switched within bound => exact .queued high switched within (by omega)

/-- What happens to others does not make the turn of a process later. -/
theorem Turn.spared (h : Turn n k Q p b) (hs : Spares X k k') (hp : p ∉ X)
    (hQ : Rings k.queueNext k.queuePrev k.queues Q)
    (hQ' : Rings k'.queueNext k'.queuePrev k'.queues Q')
    (hmem : k.priority p = 2 → p ∈ Q (.ready 2)) : Turn n k' Q' p b := by
  have hprio := hs.priority p hp
  cases h with
  | aging low bound =>
      rw [← hprio] at low bound
      rw [← hs.waitTicks p hp] at bound
      exact .aging low bound
  | queued high switched within bound =>
      obtain ⟨t, ht, hlast⟩ := switched
      obtain ⟨-, hle⟩ := hs.places Q Q' hQ hQ' 2 p hp (hmem high)
      refine .queued (hprio.trans high) ⟨t, hs.ticks.trans ht, hs.lastSwitch.trans hlast⟩ within ?_
      exact le_trans (Nat.mul_le_mul_left _ (Nat.succ_le_succ hle)) bound

/-- What a call does to the ready processes that it does not work on: the turn of each comes nearer
by `i` ticks, if the call does not dispatch it. -/
structure Fair (X : Set ℕ) (i : ℕ) (k : Kernel) (o : Outcome) : Prop where
  current : o.kernel.current ≠ 0
  clock : WithinQuantum o.kernel
  kept : ∀ p ∉ X, k.allocated p = true → k.state p = .ready → o.dispatched ≠ some p →
    o.kernel.allocated p = true ∧ o.kernel.state p = .ready
  turns : ∀ p ∉ X, k.allocated p = true → k.state p = .ready → o.dispatched ≠ some p →
    ∀ c Q c' Q' n b, Placed k c Q → Placed o.kernel c' Q' → (Q' (.ready 2)).length ≤ n →
      Turn n k Q p b → Turn n o.kernel Q' p (b - i)

theorem Ticked.withinQuantum {k₀ : Kernel} (h : Ticked k₀ Q L o)
    (hclock : ticksSinceSwitch k₀ < quantumTicks → WithinQuantum k₀) : WithinQuantum o.kernel := by
  rcases h.clock with ⟨hlast, hwithin, -⟩ | ⟨hlast, -⟩
  · obtain ⟨d, hd, t, ht, hswitch⟩ := hclock hwithin
    exact ⟨d, hd, t, h.ticks.trans ht, hlast.trans hswitch⟩
  · exact ⟨0, by decide, o.kernel.ticks, rfl, by rw [hlast, elapsedAt_ticks, h.ticks]⟩

/-- A call of `schedule` in the state `k₀`, which is the state `k` but for the clock, brings the turn
of every ready process one tick nearer. -/
theorem Turn.ticked {k₀ : Kernel} (h : Turn n k Q p b) (ht : Ticked k₀ Q L o)
    (hprio : k₀.priority p = k.priority p) (hwait : k₀.waitTicks p = k.waitTicks p)
    (hclock : ticksSinceSwitch k₀ < quantumTicks → ∀ d < quantumTicks, SwitchedBefore k d →
      d + 1 < quantumTicks ∧ SwitchedBefore k₀ (d + 1)) (hin : WithinQuantum o.kernel)
    (hpL : p ∉ L) (hs : k₀.state p = .ready) (hnot : o.dispatched ≠ some p)
    (holder : Older k₀ o.kernel p) (hmem : k.priority p = 2 → p ∈ Q (.ready 2))
    (hQ' : Rings o.kernel.queueNext o.kernel.queuePrev o.kernel.queues Q')
    (hmem' : o.kernel.priority p = 2 → p ∈ Q' (.ready 2)) (hn : (Q' (.ready 2)).length ≤ n) :
    Turn n o.kernel Q' p (b - 1) := by
  have hb := h.pos
  have hold : k.priority p < o.kernel.priority p ∨ o.kernel.priority p = k.priority p ∧
      k.waitTicks p < o.kernel.waitTicks p ∧ ¬Due k p := by
    rw [Older, Due, hprio, hwait] at holder
    exact holder
  cases h with
  | aging low bound =>
      by_cases hhigh : o.kernel.priority p = 2
      · -- The process has come into the highest queue.
        obtain ⟨d, hd, hswitch⟩ := hin
        have hplace := List.idxOf_lt_length_of_mem (hmem' hhigh)
        refine .queued hhigh hswitch hd ?_
        simp only [agingThreshold, processPriorityMax, quantumTicks] at *
        omega
      · have hlow : (o.kernel.priority p : ℕ) < processPriorityMax := by
          have hlt := (o.kernel.priority p).isLt
          have hne : (o.kernel.priority p : ℕ) ≠ 2 := fun he => hhigh (Fin.ext he)
          rw [processPriorityMax]
          omega
        refine .aging hlow ?_
        rcases hold with hup | ⟨hsame, hlt, hdue⟩
        · have hup' := Fin.lt_def.mp hup
          simp only [agingThreshold, processPriorityMax, quantumTicks] at *
          omega
        · have hwaits : k.waitTicks p + 1 < agingThreshold := not_le.mp fun hle => hdue ⟨hle, low⟩
          rw [hsame]
          simp only [agingThreshold, processPriorityMax, quantumTicks] at *
          omega
  | @queued d high switched within bound =>
      have hsame : o.kernel.priority p = 2 := by
        rcases hold with hup | ⟨hsame, -⟩
        · rw [high] at hup
          exact absurd (Fin.le_last _) (not_le.mpr hup)
        · exact hsame.trans high
      rcases ht.clock with ⟨hlast, hwithin, hnear⟩ | ⟨hlast, hnear⟩
      · obtain ⟨hd, t, htick, hswitch⟩ := hclock hwithin d within switched
        have hplace := hnear p hpL hs hnot (hmem high) Q' hQ'
        refine .queued hsame ⟨t, ht.ticks.trans htick, hlast.trans hswitch⟩ hd ?_
        simp only [quantumTicks] at *
        omega
      · have hplace := hnear p hpL hs hnot (hmem high) Q' hQ'
        have hzero : SwitchedBefore o.kernel 0 :=
          ⟨o.kernel.ticks, rfl, by rw [hlast, elapsedAt_ticks, ht.ticks]⟩
        refine .queued hsame hzero (by decide) ?_
        simp only [quantumTicks] at *
        omega

theorem Placed.mem_highest (h : Placed k c Q) (ha : k.allocated p = true) (hs : k.state p = .ready)
    (hprio : k.priority p = 2) : p ∈ Q (.ready 2) :=
  (h.members.ready 2 p (by simp)).mpr ⟨ha, hs, hprio⟩

/-- A call of `schedule` in a state that differs from `k` in the clock only. -/
theorem Ticked.fair {k₀ : Kernel} (h : Ticked k₀ Q₁ L o) (hprio : k₀.priority = k.priority)
    (hwait : k₀.waitTicks = k.waitTicks) (halloc : k₀.allocated = k.allocated)
    (hstate : k₀.state = k.state)
    (hclock : ticksSinceSwitch k₀ < quantumTicks → ∀ d < quantumTicks, SwitchedBefore k d →
      d + 1 < quantumTicks ∧ SwitchedBefore k₀ (d + 1)) (hin : WithinQuantum k)
    (hcur : o.kernel.current ≠ 0) (hQ₁ : Rings k.queueNext k.queuePrev k.queues Q₁) :
    Fair {a | a ∈ L} 1 k o := by
  have hquantum : WithinQuantum o.kernel := by
    refine h.withinQuantum fun hwithin => ?_
    obtain ⟨d, hd, hswitch⟩ := hin
    exact ⟨d + 1, hclock hwithin d hd hswitch⟩
  have hkept : ∀ p ∉ L, k.allocated p = true → k.state p = .ready → o.dispatched ≠ some p →
      o.kernel.allocated p = true ∧ o.kernel.state p = .ready ∧ Older k₀ o.kernel p :=
    fun p hpL ha hs => h.kept p hpL (halloc ▸ ha) (hstate ▸ hs)
  refine ⟨hcur, hquantum, fun p hpL ha hs hnot => ?_,
    fun p hpL ha hs hnot c Q c' Q' n b hQ hQ' hn hturn => ?_⟩
  · obtain ⟨ha', hs', -⟩ := hkept p hpL ha hs hnot
    exact ⟨ha', hs'⟩
  · obtain ⟨ha', hs', holder⟩ := hkept p hpL ha hs hnot
    obtain rfl := hQ₁.unique hQ.rings
    exact hturn.ticked h (congrFun hprio p) (congrFun hwait p) hclock hquantum hpL (hstate ▸ hs) hnot
      holder (hQ.mem_highest ha hs) hQ'.rings (hQ'.mem_highest ha' hs') hn

theorem ScheduleEffect.current_ne {F : List ℕ} (h : ScheduleEffect k L F o) (hk : Placed k c Q)
    (hc : k.current ≠ 0) : o.kernel.current ≠ 0 := by
  cases h with
  | kept plain core => exact core.current ▸ hc
  | switched next effect => exact effect.current ▸ (hk.valid _ effect.next_allocated).1

/-- A tick brings the turn of every ready process one tick nearer. -/
theorem QueuesAgree.tick_fair (h : QueuesAgree k k.current Q) (hc : k.current ≠ 0)
    (hL : SaveWakes k k.current L) (hin : WithinQuantum k) (hcall : timerTick k frame = some o) :
    Fair {a | a ∈ L} 1 k o := by
  obtain ⟨o', Q', heq, -, heffect⟩ := timerTick_spec frame h fun _ => hL
  obtain rfl := Option.some.inj (hcall.symm.trans heq)
  have h₀ : QueuesAgree { k with ticks := k.ticks + 1 } k.current Q :=
    ⟨h.rings, h.members, h.valid, h.idle, h.current, h.terminals, h.noPipes⟩
  have hticked := h₀.schedule_ticked hc (hL.congr rfl rfl rfl rfl) hcall
  refine hticked.fair rfl rfl rfl rfl (fun hwithin d hd hswitch => ?_) hin
    (heffect.current_ne h.placed hc) h.rings
  obtain ⟨t, ht, hlast⟩ := hswitch
  have hnext : SwitchedBefore { k with ticks := k.ticks + 1 } (d + 1) :=
    ⟨t, congrArg (· + 1) ht, hlast⟩
  have hsmall : d + 1 < 2 ^ 32 := by
    rw [quantumTicks] at hd
    omega
  exact ⟨(hnext.ticksSinceSwitch hsmall).trans_lt hwithin, hnext⟩

/-- A yield always ends the quantum. -/
theorem quantum_over (k : Kernel) : quantumTicks ≤ ticksSinceSwitch
    { k with
      lastSwitchTick := (ticksElapsed k + 2 ^ 64 - quantumTicks) % 2 ^ 64
      ticks := k.ticks + 1 } := by
  rw [ticksSinceSwitch, elapsedAt_ticks, elapsedAt_ticks]
  simp only [elapsedAt, quantumTicks]
  split <;> split <;> omega

theorem QueuesAgree.yield_fair (h : QueuesAgree k k.current Q) (hc : k.current ≠ 0)
    (hL : SaveWakes k k.current L) (hin : WithinQuantum k) {r : ℕ}
    (hcall : schedulerYieldCurrent k frame r = some o) : Fair {a | a ∈ L} 0 k o := by
  obtain ⟨o', Q', heq, -, heffect⟩ := schedulerYieldCurrent_spec frame r h fun _ => hL
  obtain rfl := Option.some.inj (hcall.symm.trans heq)
  have hcur := heffect.current_ne h.placed hc
  rw [schedulerYieldCurrent] at hcall
  split at hcall
  · cases hcall
    refine ⟨hcur, hin, fun p _ ha hs _ => ⟨ha, hs⟩,
      fun p _ ha hs _ c Q c' Q' n b hQ hQ' _ hturn => ?_⟩
    rw [← hQ.rings.unique hQ'.rings]
    exact hturn
  · have h₀ : QueuesAgree
        { k with
          lastSwitchTick := (ticksElapsed k + 2 ^ 64 - quantumTicks) % 2 ^ 64
          ticks := k.ticks + 1 } k.current Q :=
      ⟨h.rings, h.members, h.valid, h.idle, h.current, h.terminals, h.noPipes⟩
    have hticked := h₀.schedule_ticked hc (hL.congr rfl rfl rfl rfl) hcall
    have hfair := hticked.fair (k := k) rfl rfl rfl rfl
      (fun hwithin => absurd hwithin (not_lt.mpr (quantum_over k))) hin hcur h.rings
    refine ⟨hcur, hfair.clock, hfair.kept, fun p hp ha hs hnot c Q c' Q' n b hQ hQ' hn hturn => ?_⟩
    exact (hfair.turns p hp ha hs hnot c Q c' Q' n b hQ hQ' hn hturn).mono (Nat.sub_le b 1)

/-- What happens before a call does not matter to those that it does not work on. -/
theorem Fair.after {i : ℕ} (h : Fair Y i k₁ o) (hs : Spares X k k₁) (hYX : Y ⊆ X)
    (h₁ : Placed k₁ c Q₁) : Fair X i k o := by
  refine ⟨h.current, h.clock, fun p hp ha hst hnot => ?_,
    fun p hp ha hst hnot c Q c' Q' n b hQ hQ' hn hturn => ?_⟩
  · exact h.kept p (fun hY => hp (hYX hY)) ((hs.allocated p hp).trans ha)
      ((hs.state p hp).trans hst) hnot
  · have hturn₁ := hturn.spared hs hp hQ.rings h₁.rings (hQ.mem_highest ha hst)
    exact h.turns p (fun hY => hp (hYX hY)) ((hs.allocated p hp).trans ha)
      ((hs.state p hp).trans hst) hnot _ Q₁ c' Q' n b h₁ hQ' hn hturn₁

end Turns

section Calls

variable {call : Call} {frame : Frame}

theorem Spares.fair (h : Spares X k o.kernel) (hc : k.current ≠ 0) (hin : WithinQuantum k) :
    Fair X 0 k o := by
  refine ⟨h.current ▸ hc, ?_, fun p hp ha hs _ => ?_,
    fun p hp ha hs _ c Q c' Q' n b hQ hQ' _ hturn => ?_⟩
  · obtain ⟨d, hd, t, ht, hlast⟩ := hin
    exact ⟨d, hd, t, h.ticks.trans ht, h.lastSwitch.trans hlast⟩
  · exact ⟨(h.allocated p hp).trans ha, (h.state p hp).trans hs⟩
  · exact hturn.spared h hp hQ.rings hQ'.rings (hQ.mem_highest ha hs)

/-- The waiters that a switch wakes are targets of the call. -/
theorem SaveWakes.subset (h : SaveWakes k k.current L) (hk : QueuesAgree k c Q) :
    {a | a ∈ L} ⊆ {w | k.state k.current = .finished ∧
      w ∈ waitersFrom k.waiterNext addressCount (k.waitersHead k.current)} := by
  intro a ha
  by_cases hf : k.state k.current = .finished
  · rw [SaveWakes, if_pos hf] at h
    refine ⟨hf, ?_⟩
    rwa [Chain.waitersFrom h.chain (h.length_lt hk)]
  · rw [SaveWakes, if_neg hf] at h
    rw [h] at ha
    cases ha

theorem Fair.mono {i : ℕ} (h : Fair X i k o) (hXY : X ⊆ Y) : Fair Y i k o :=
  ⟨h.current, h.clock, fun p hp => h.kept p fun hX => hp (hXY hX),
    fun p hp => h.turns p fun hX => hp (hXY hX)⟩

/-- Blocking the current process and switching to another one. -/
theorem QueuesAgree.blockYield_fair (h : QueuesAgree k k.current Q) (hc : k.current ≠ 0)
    (hb : CanBlock k) (hin : WithinQuantum k) {r : ℕ}
    (hcall : schedulerYieldCurrent (schedulerBlockCurrent k) frame r = some o) :
    Fair {k.current} 0 k o := by
  have hspares : Spares {k.current} k (schedulerBlockCurrent k) :=
    exec_blockCurrent_spares (o := .return 0 (schedulerBlockCurrent k)) rfl
  have hagree : QueuesAgree (schedulerBlockCurrent k) (schedulerBlockCurrent k).current Q := by
    rw [hspares.current]
    exact schedulerBlockCurrent_spec h hb
  have hL : SaveWakes (schedulerBlockCurrent k) (schedulerBlockCurrent k).current [] := by
    have hnot : (schedulerBlockCurrent k).state k.current ≠ .finished := by
      rw [schedulerBlockCurrent]
      split
      · rename_i hcur
        have hidle := hcur.resolve_left hc
        rw [hidle]
        rcases (h.idle (hidle ▸ hc)).2 with hrun | hrun <;> rw [hrun] <;> decide
      · show update k.state k.current .blocked k.current ≠ .finished
        rw [Function.update_self]
        decide
    rw [SaveWakes, hspares.current, if_neg hnot]
  have hclock := (hspares.fair (o := .return 0 (schedulerBlockCurrent k)) hc hin).clock
  have hfair := hagree.yield_fair (by rw [hspares.current]; exact hc) hL hclock hcall
  exact hfair.after hspares (fun a ha => absurd ha List.not_mem_nil) hagree.placed

theorem exec_wait_fair (h : QueuesAgree k k.current Q) (hc : k.current ≠ 0) (hin : WithinQuantum k)
    {pid : ℕ} (hs : QueueSafe k (.wait pid frame)) (hcall : exec k (.wait pid frame) = some o) :
    Fair {k.current} 0 k o := by
  have hsame (r : ℕ) : Fair {k.current} 0 k (.return r k) := Spares.fair (.refl _ k) hc hin
  rw [exec, syscallWait] at hcall
  split at hcall
  · cases hcall
    exact hsame 0
  obtain ⟨t, hfind, -⟩ := schedulerFindByPid_spec h pid
  rw [hfind, Option.bind_eq_bind, Option.bind_some] at hcall
  split at hcall
  · cases hcall
    exact hsame 0
  rename_i ht0
  split at hcall
  · cases hcall
    refine Spares.fair (o := .return 1 _) ?_ hc hin
    split
    · exact .of_links rfl rfl rfl rfl rfl rfl (fun _ _ => rfl) (fun _ _ => rfl) (fun _ _ => rfl)
        fun _ _ => rfl
    · exact .refl _ k
  rename_i hfin
  split at hcall
  · cases hcall
    exact hsame 0
  rename_i hme
  have hcan := hs t hfind ht0 hfin (not_or.mp hme).2
  have hlinked : Spares {k.current} k (waitLinked k t pid) :=
    .of_links rfl rfl rfl rfl rfl rfl (fun _ _ => rfl) (fun _ _ => rfl) (fun _ _ => rfl)
      fun _ _ => rfl
  have h₁ : QueuesAgree (waitLinked k t pid) (waitLinked k t pid).current Q :=
    ⟨h.rings, h.members, h.valid, h.idle, h.current, h.terminals, h.noPipes⟩
  exact (h₁.blockYield_fair hc hcan hin hcall).after hlinked (fun a ha => ha) h₁.placed

theorem exec_semWait_fair (h : QueuesAgree k k.current Q) (hc : k.current ≠ 0)
    (hin : WithinQuantum k) {id : ℕ} (hs : QueueSafe k (.semWait id frame))
    (hcall : exec k (.semWait id frame) = some o) : Fair {k.current} 0 k o := by
  have hs' : (semWaitStart k id).2 = .queued → CanBlock k := hs
  rw [exec, semWaitById] at hcall
  unfold semWaitStart at hs' hcall
  cases hget : semGetById k id with
  | none =>
      simp only [hget, Option.some_inj] at hcall
      exact hcall ▸ Spares.fair (o := .return 0 k) (.refl _ k) hc hin
  | some i =>
      simp only [hget, if_neg hc] at hs' hcall
      by_cases hpos : 0 < (k.semaphores i).value
      · simp only [if_pos hpos, Option.some_inj] at hcall
        rw [← hcall]
        refine Spares.fair (o := .return 1 _) ?_ hc hin
        exact .of_links rfl rfl rfl rfl rfl rfl (fun _ _ => rfl) (fun _ _ => rfl) (fun _ _ => rfl)
          fun _ _ => rfl
      · simp only [if_neg hpos] at hs' hcall
        obtain ⟨sems, swn, hshape⟩ := enqueueWaiter_shape
          { k with waitingOnSem := update k.waitingOnSem k.current (k.semaphores i).id } i k.current
        rw [hshape] at hcall
        have h₁ := h.withSemaphores sems (update k.waitingOnSem k.current (k.semaphores i).id) swn
          k.nextSemId
        have hqueued : Spares {k.current} k
            { k with
              semaphores := sems
              waitingOnSem := update k.waitingOnSem k.current (k.semaphores i).id
              semWaiterNext := swn } :=
          .of_links rfl rfl rfl rfl rfl rfl (fun _ _ => rfl) (fun _ _ => rfl) (fun _ _ => rfl)
            fun _ _ => rfl
        have hfair := h₁.blockYield_fair hc (hs' trivial) hin hcall
        exact hfair.after hqueued (fun a ha => ha) h₁.placed

/-- Each call is fair to the ready processes that it does not work on. -/
theorem exec_fair (h : QueuesAgree k k.current Q) (hc : k.current ≠ 0) (hin : WithinQuantum k)
    (hs : QueueSafe k call) (hcall : exec k call = some o) :
    Fair (targets k call) call.ticks k o := by
  cases call with
  | tick frame =>
      obtain ⟨L, hL⟩ := exists_saveWakes hs
      exact (h.tick_fair hc (hL hc) hin hcall).mono ((hL hc).subset h)
  | yield frame =>
      obtain ⟨L, hL⟩ := exists_saveWakes hs
      exact (h.yield_fair hc (hL hc) hin hcall).mono ((hL hc).subset h)
  | wait pid frame => exact exec_wait_fair h hc hin hs hcall
  | semWait id frame => exact exec_semWait_fair h hc hin hs hcall
  | _ => exact (exec_spares h hs id hcall).fair hc hin

end Calls

section Runs

variable {k₀ : Kernel} {call : Call} {steps steps' : List Step} {pcb stack : ℕ}

theorem ticksIn_append (steps steps' : List Step) :
    ticksIn (steps ++ steps') = ticksIn steps + ticksIn steps' := by
  rw [ticksIn, List.map_append, List.sum_append, ticksIn, ticksIn]

theorem Ticking.step (h : Ticking k) (hs : QueueSafe k call) (hcall : exec k call = some o) :
    Ticking o.kernel := by
  obtain ⟨Q, hagree⟩ := h.agree
  obtain ⟨o', Q', heq, hagree', -⟩ := exec_spec hagree hs
  obtain rfl := Option.some.inj (hcall.symm.trans heq)
  have hfair := exec_fair hagree h.current h.clock hs hcall
  exact ⟨⟨Q', hagree'⟩, hfair.current, hfair.clock⟩

theorem Run.ticking (run : Run k₀ steps k) (h : Ticking k₀)
    (hsafe : ∀ s ∈ steps, QueueSafe s.before s.call) : Ticking k :=
  run.invariant (I := Ticking) hsafe h fun _ _ _ hk hs hcall => hk.step hs hcall

theorem initScheduler_ticking (hpcb : pcb ≠ 0) (hstack : stack ≠ 0) (hlt : pcb < addressCount)
    (h : initScheduler bootKernel pcb stack = some k₀) : Ticking k₀ := by
  have hagree := initScheduler_agree hlt h
  obtain ⟨-, hcur, -⟩ := initScheduler_wellFormed hpcb hstack hlt h
  refine ⟨⟨_, hagree⟩, hcur ▸ hpcb, 0, by decide, k₀.ticks, rfl, ?_⟩
  obtain ⟨fdp, hcreate⟩ := processCreate_created
    (k := { bootKernel with
      nextPid := 1
      queues := fun _ => ⟨0, 0, 0⟩ }) (fun _ _ => rfl) (fun _ => rfl)
    (r := ⟨1, 0, 0, false, 0, 0, pcb, stack⟩) one_ne_zero hpcb hstack
  simp only [initScheduler, hcreate, Option.bind_eq_bind, Option.bind_some, if_pos hpcb,
    Option.some_inj] at h
  rw [← h]
  rfl

/-- In a run that neither works on a ready process nor dispatches it, its turn comes nearer with
each tick. -/
theorem Run.turn (run : Run k₀ steps k) (h : Ticking k₀) (ha : k₀.allocated p = true)
    (hs : k₀.state p = .ready) (hQ : QueuesAgree k₀ k₀.current Q) (hturn : Turn n k₀ Q p b)
    (hsafe : ∀ s ∈ steps, QueueSafe s.before s.call)
    (hspared : ∀ s ∈ steps, p ∉ targets s.before s.call)
    (hcrowd : ∀ s ∈ steps, (s.outcome.kernel.queues (.ready 2)).size ≤ n)
    (hnever : ∀ s ∈ steps, s.outcome.dispatched ≠ some p) :
    k.allocated p = true ∧ k.state p = .ready ∧
      ∃ Q', QueuesAgree k k.current Q' ∧ Turn n k Q' p (b - ticksIn steps) := by
  induction run with
  | nil => exact ⟨ha, hs, Q, hQ, hturn⟩
  | @snoc steps k c o run step ih =>
      have hbefore {P : Step → Prop} (hP : ∀ s ∈ steps ++ [⟨k, c, o⟩], P s) : ∀ s ∈ steps, P s :=
        fun s hm => hP s (List.mem_append_left _ hm)
      have hlast : (⟨k, c, o⟩ : Step) ∈ steps ++ [⟨k, c, o⟩] := by simp
      obtain ⟨hk, hready, Q₁, hQ₁, hturn₁⟩ :=
        ih (hbefore hsafe) (hbefore hspared) (hbefore hcrowd) (hbefore hnever)
      have hticking := run.ticking h (hbefore hsafe)
      obtain ⟨o', Q', heq, hQ', -⟩ := exec_spec hQ₁ (hsafe _ hlast)
      obtain rfl := Option.some.inj (step.symm.trans heq)
      have hfair := exec_fair hQ₁ hticking.current hticking.clock (hsafe _ hlast) step
      obtain ⟨hk', hready'⟩ := hfair.kept p (hspared _ hlast) hk hready (hnever _ hlast)
      refine ⟨hk', hready', Q', hQ', ?_⟩
      have hn : (Q' (.ready 2)).length ≤ n :=
        (hQ'.rings.list (.ready 2)).size_eq.symm.trans_le (hcrowd _ hlast)
      have hnext := hfair.turns p (hspared _ hlast) hk hready (hnever _ hlast) _ Q₁ _ Q' n _
        hQ₁.placed hQ'.placed hn hturn₁
      rw [ticksIn_append, ← Nat.sub_sub]
      exact hnext

/-- The first bound for the turn of a process. -/
theorem Ticking.turn (h : Ticking k) (ha : k.allocated p = true) (hs : k.state p = .ready)
    (hn : (k.queues (.ready 2)).size ≤ n) : ∃ Q, QueuesAgree k k.current Q ∧
      Turn n k Q p (agingThreshold * (processPriorityMax - k.priority p) + quantumTicks * n) := by
  obtain ⟨Q, hQ⟩ := h.agree
  refine ⟨Q, hQ, ?_⟩
  by_cases hhigh : k.priority p = 2
  · obtain ⟨d, hd, hswitch⟩ := h.clock
    have hplace := List.idxOf_lt_length_of_mem (hQ.placed.mem_highest ha hs hhigh)
    rw [← (hQ.rings.list (.ready 2)).size_eq] at hplace
    have hmul := Nat.mul_le_mul_left quantumTicks (Nat.succ_le_of_lt (hplace.trans_le hn))
    exact .queued hhigh hswitch hd ((hmul.trans (Nat.le_add_left _ _)).trans (Nat.le_add_right _ _))
  · have hlow : (k.priority p : ℕ) < processPriorityMax := by
      have hlt := (k.priority p).isLt
      have hne : (k.priority p : ℕ) ≠ 2 := fun he => hhigh (Fin.ext he)
      rw [processPriorityMax]
      omega
    exact .aging hlow (Nat.le_add_right _ _)

/-- No ready process starves: whatever the others do, it is dispatched after at most
`AGING_THRESHOLD` ticks for each level below the highest priority and a quantum for each process
that the highest ready queue can hold, as long as no call works on it. -/
theorem ready_process_is_dispatched (hpcb : pcb ≠ 0) (hstack : stack ≠ 0) (hlt : pcb < addressCount)
    (hinit : initScheduler bootKernel pcb stack = some k₀) (start : Run k₀ steps k)
    (hstart : ∀ s ∈ steps, QueueSafe s.before s.call) (run : Run k steps' k')
    (hsafe : ∀ s ∈ steps', QueueSafe s.before s.call) (ha : k.allocated p = true)
    (hs : k.state p = .ready) (hspared : ∀ s ∈ steps', p ∉ targets s.before s.call)
    (hn : (k.queues (.ready 2)).size ≤ n)
    (hcrowd : ∀ s ∈ steps', (s.outcome.kernel.queues (.ready 2)).size ≤ n)
    (hticks : agingThreshold * (processPriorityMax - k.priority p) + quantumTicks * n ≤
      ticksIn steps') : ∃ s ∈ steps', s.outcome.dispatched = some p := by
  have hticking := start.ticking (initScheduler_ticking hpcb hstack hlt hinit) hstart
  obtain ⟨Q, hQ, hturn⟩ := hticking.turn ha hs hn
  by_contra hnever
  push Not at hnever
  obtain ⟨-, -, Q', -, hlast⟩ :=
    run.turn hticking ha hs hQ hturn hsafe hspared hcrowd hnever
  have hpos := hlast.pos
  omega

/-- A process of priority 1 is dispatched within 216 ticks although a process of priority 2 never
gives up the processor. -/
theorem ready_process_is_dispatched_late :
    ∃ k₀ steps k steps' k', initScheduler bootKernel 16 8192 = some k₀ ∧ Run k₀ steps k ∧
      Run k steps' k' ∧ k.state 64 = .ready ∧ k.priority 64 = 1 ∧
      steps'.map Step.call = List.replicate 216 (.tick ⟨0, fun _ => 0⟩) ∧
      ∃ s ∈ steps', s.outcome.dispatched = some 64 := by
  have hcalc : ((initScheduler bootKernel 16 8192).bind fun k₀ =>
      (exec k₀ (.spawn ⟨1, 0, 2, false, 0, 0, 48, 12288⟩)).bind fun o₁ =>
        (exec o₁.kernel (.spawn ⟨1, 0, 1, false, 0, 0, 64, 32768⟩)).bind fun o₂ =>
          (stepsOf o₂.kernel (List.replicate 216 (.tick ⟨0, fun _ => 0⟩))).map fun steps =>
            decide (k₀.allocated 48 = false ∧ o₁.kernel.allocated 64 = false ∧
              o₂.kernel.allocated 64 = true ∧ o₂.kernel.state 64 = .ready ∧
              o₂.kernel.priority 64 = 1 ∧ (o₂.kernel.queues (.ready 2)).size ≤ 2 ∧
              ∀ s ∈ steps, s.before.state s.before.current ≠ .finished ∧
                (s.outcome.kernel.queues (.ready 2)).size ≤ 2)) = some true := by
    decide +kernel
  obtain ⟨k₀, hinit, h₁⟩ := Option.bind_eq_some_iff.mp hcalc
  obtain ⟨o₁, hfirst, h₂⟩ := Option.bind_eq_some_iff.mp h₁
  obtain ⟨o₂, hsecond, h₃⟩ := Option.bind_eq_some_iff.mp h₂
  obtain ⟨steps, hsteps, h₄⟩ := Option.map_eq_some_iff.mp h₃
  obtain ⟨hfree, hfree', ha, hs, hprio, hn, hall⟩ := of_decide_eq_true h₄
  obtain ⟨k', run, hcalls⟩ := Run.of_stepsOf hsteps
  have hlt : 64 < addressCount := by
    unfold addressCount
    decide
  have htick : ∀ s ∈ steps, s.call = .tick ⟨0, fun _ => 0⟩ := by
    intro s hm
    have hmem : s.call ∈ steps.map Step.call := List.mem_map_of_mem hm
    rw [hcalls] at hmem
    exact List.eq_of_mem_replicate hmem
  have hticks : ticksIn steps = 216 := by
    have hcount : steps.map (fun s => s.call.ticks) = (steps.map Step.call).map Call.ticks := by
      simp
    rw [ticksIn, hcount, hcalls]
    decide +kernel
  have start : Run k₀ [⟨k₀, _, o₁⟩, ⟨o₁.kernel, _, o₂⟩] o₂.kernel :=
    .cons hfirst (.cons hsecond .nil)
  refine ⟨k₀, _, o₂.kernel, steps, k', hinit, start, run, hs, hprio, hcalls, ?_⟩
  refine ready_process_is_dispatched (by decide) (by decide) (by omega) hinit start ?_ run
    (fun s hm => ?_) ha hs (fun s hm => ?_) hn (fun s hm => (hall s hm).2) ?_
  · have hvalid : QueueSafe k₀ (.spawn ⟨1, 0, 2, false, 0, 0, 48, 12288⟩) :=
      ⟨fun _ => ⟨hlt.trans' (by decide), hfree⟩, fun hp => absurd rfl hp⟩
    have hvalid' : QueueSafe o₁.kernel (.spawn ⟨1, 0, 1, false, 0, 0, 64, 32768⟩) :=
      ⟨fun _ => ⟨hlt, hfree'⟩, fun hp => absurd rfl hp⟩
    exact List.forall_mem_cons.mpr ⟨hvalid, List.forall_mem_cons.mpr ⟨hvalid', fun s hm => nomatch hm⟩⟩
  · rw [htick s hm]
    exact fun _ hfin => absurd hfin (hall s hm).1
  · rw [htick s hm]
    exact fun hfin => (hall s hm).1 hfin.1
  · rw [hticks, hprio]
    decide

end Runs

end SoKernel
