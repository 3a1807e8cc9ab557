import SoKernel.Drivers.TerminalRead

/-!
# The wake-ups of the keyboard

Each key that is stored while a process waits for one takes a process from the queue of the
keyboard. The processes so taken that have not looked into the buffer are at least as many as
the keys in it, as long as somebody waits in the queue.
-/

namespace SoKernel

open Function (update)
open LinkedList (Queue)

variable {k k' k₁ : Kernel} {V : Sems} {c : OpenCall} {ch : Choice} {p id : ℕ} {L W : List ℕ}

section Frames

/-- The queue of a semaphore depends on its entry and the links of its members. -/
theorem WaitQueue.congr (h : WaitQueue k id L)
    (hsem : ∀ i, (k'.semaphores i).used = (k.semaphores i).used ∧ (k'.semaphores i).id = (k.semaphores i).id ∧
      (k'.semaphores i).waitHead = (k.semaphores i).waitHead ∧
      (k'.semaphores i).waitTail = (k.semaphores i).waitTail)
    (hnext : ∀ p ∈ L, k'.semWaiterNext p = k.semWaiterNext p) : WaitQueue k' id L := by
  obtain ⟨i, hfound, hqueue⟩ := h
  have hget : semGetById k' id = semGetById k id := by
    simp only [semGetById, findSlotById, (hsem _).1, (hsem _).2.1]
  refine ⟨i, hget.trans hfound, ?_⟩
  rw [(hsem i).2.2.1, (hsem i).2.2.2]
  exact hqueue.congr hnext

theorem WaitQueue.unique {M : List ℕ} (h : WaitQueue k id L) (h' : WaitQueue k id M) : L = M := by
  obtain ⟨i, hfound, hqueue⟩ := h
  obtain ⟨j, hfound', hqueue'⟩ := h'
  rw [hfound, Option.some_inj] at hfound'
  subst hfound'
  exact hqueue.chain.unique hqueue'.chain

/-- `keyboard_clear_buffer` leaves the queues. -/
theorem clearedSemaphores_queue (k : Kernel) (i : ℕ) :
    (clearedSemaphores k i).used = (k.semaphores i).used ∧ (clearedSemaphores k i).id = (k.semaphores i).id ∧
      (clearedSemaphores k i).waitHead = (k.semaphores i).waitHead ∧
      (clearedSemaphores k i).waitTail = (k.semaphores i).waitTail := by
  rw [clearedSemaphores]
  cases semGetById k k.kbdSemId with
  | none => exact ⟨rfl, rfl, rfl, rfl⟩
  | some j =>
      dsimp only
      by_cases hij : i = j
      · subst hij
        rw [Function.update_self]
        exact ⟨rfl, rfl, rfl, rfl⟩
      · rw [Function.update_of_ne hij]
        exact ⟨rfl, rfl, rfl, rfl⟩

/-- What the calls on processes leave of the keyboard, and of the ready processes but the current
one and those in `gone`. -/
structure KeysApart (gone : ℕ → Prop) (k k' : Kernel) : Prop where
  kbdSemId : k'.kbdSemId = k.kbdSemId
  size : k'.keyboard.size = k.keyboard.size ∨ k'.keyboard.size = 0
  queue : ∀ L, WaitQueue k k.kbdSemId L → WaitQueue k' k.kbdSemId L
  waits : ∀ p, k'.allocated p = true →
    k.allocated p = true ∧ k'.waitingOnSem p = k.waitingOnSem p ∨ k'.waitingOnSem p = 0
  ready : ∀ p, ¬gone p → p ≠ k.current → k.allocated p = true → k.state p = .ready →
    k'.allocated p = true ∧ (k'.state p = .ready ∨ p = k'.current)

variable {gone : ℕ → Prop}

theorem KeysApart.trans (h : KeysApart gone k k₁) (h' : KeysApart gone k₁ k') (hcur : k₁.current = k.current)
    (hready : ∀ p, ¬gone p → p ≠ k.current → k.allocated p = true → k.state p = .ready → k₁.state p = .ready) :
    KeysApart gone k k' := by
  refine ⟨h'.kbdSemId.trans h.kbdSemId, ?_, fun L hL => ?_, fun p hp => ?_, fun p hg hpc hal hs => ?_⟩
  · obtain hsame | hzero := h'.size
    · rw [hsame]
      exact h.size
    · exact Or.inr hzero
  · have hL' := h'.queue L
    rw [h.kbdSemId] at hL'
    exact hL' (h.queue L hL)
  · obtain ⟨hal, hsame⟩ | hzero := h'.waits p hp
    · rw [hsame]
      exact h.waits p hal
    · exact Or.inr hzero
  · have hpc' : p ≠ k₁.current := hcur.symm ▸ hpc
    exact h'.ready p hg hpc' (h.ready p hg hpc hal hs).1 (hready p hg hpc hal hs)

/-- Only the states of processes change, and no ready process but the current one and those in
`gone` gets another state. -/
theorem KeysApart.states (hkbd : k'.kbdSemId = k.kbdSemId) (hkeys : k'.keyboard = k.keyboard)
    (hsem : k'.semaphores = k.semaphores) (hlink : k'.semWaiterNext = k.semWaiterNext)
    (hal : k'.allocated = k.allocated) (hon : k'.waitingOnSem = k.waitingOnSem)
    (hstate : ∀ p, ¬gone p → p ≠ k.current → k.state p = .ready → k'.state p = .ready) :
    KeysApart gone k k' := by
  refine ⟨hkbd, Or.inl (by rw [hkeys]), fun L hL => ?_, fun p hp => ?_, fun p hg hpc ha hs => ?_⟩
  · apply hL.congr
    · intro i
      rw [hsem]
      exact ⟨rfl, rfl, rfl, rfl⟩
    · intro p _
      rw [hlink]
  · rw [hal] at hp
    exact Or.inl ⟨hp, by rw [hon]⟩
  · rw [hal]
    exact ⟨ha, Or.inl (hstate p hg hpc hs)⟩

/-- Waking processes leaves who is ready. -/
theorem setAll_ready {st : ℕ → ProcessState} (h : st p = .ready) (L : List ℕ) : setAll L .ready st p = .ready := by
  by_cases hm : p ∈ L
  · exact setAll_of_mem _ _ hm
  · rw [setAll_of_not_mem _ _ hm]
    exact h

theorem savedState_ready (hs : k.state p = .ready) (hp : p ≠ k.current) (L : List ℕ) :
    savedState k k.current L p = .ready := by
  rw [savedState]
  split
  · rw [Function.update_of_ne hp]
    exact hs
  · exact setAll_ready hs L

theorem Switched.keysApart {M : List ℕ} (h : Switched k ch M k') (gone : ℕ → Prop) : KeysApart gone k k' := by
  have hstate : ∀ p, p ≠ k.current → k.state p = .ready → p ∉ ch.dead := by
    intro p hp hs hm
    have hfin := (h.dead p hm).2.1
    rw [savedState_ready hs hp] at hfin
    cases hfin
  obtain ⟨pa, fc, ns, ps, hshape⟩ := buryAll_shape (switchedBy k M ch.next) ch.dead
  refine ⟨?_, ?_, fun L hL => ?_, fun p hp => Or.inl ⟨h.allocated_before hp, ?_⟩, fun p _ hpc ha hs => ⟨?_, ?_⟩⟩
  · rw [h.result, hshape]
  · rw [h.result, hshape]
    dsimp only
    split
    · exact Or.inr rfl
    · exact Or.inl rfl
  · apply hL.congr
    · intro i
      rw [h.result, hshape]
      dsimp only
      split
      · exact clearedSemaphores_queue k i
      · exact ⟨rfl, rfl, rfl, rfl⟩
    · intro p _
      rw [h.result, hshape]
  · rw [h.kept.2.2]
  · rw [h.allocated, setAll_of_not_mem _ _ (hstate p hpc hs)]
    exact ha
  · rw [h.state, h.current]
    by_cases hn : p = ch.next
    · exact Or.inr hn
    · rw [Function.update_of_ne hn]
      exact Or.inl (savedState_ready hs hpc M)

/-- A new control block leaves the keyboard. -/
theorem FreshPcb.keysApart {pcb : ℕ} (hnew : FreshPcb k k' pcb) (h : Listed k V)
    (hkbd : k'.kbdSemId = k.kbdSemId) (hkeys : k'.keyboard = k.keyboard) : KeysApart gone k k' := by
  refine ⟨hkbd, Or.inl (by rw [hkeys]), fun L hL => ?_, fun p hp => ?_, fun p _ _ ha hs => ?_⟩
  · obtain ⟨s, hs, rfl⟩ := h.sems.waitQueue_iff.mp hL
    apply hL.congr
    · intro i
      rw [hnew.semaphores]
      exact ⟨rfl, rfl, rfl, rfl⟩
    · intro p hp
      exact hnew.semWaiterNext p (hnew.ne (h.live _ s hs p hp))
  · by_cases hpp : p = pcb
    · subst hpp
      exact Or.inr (hnew.made hp).2.1
    · rw [hnew.allocated p hpp] at hp
      exact Or.inl ⟨hp, hnew.waitingOnSem p hpp⟩
  · have hpp := hnew.ne ha
    rw [hnew.allocated p hpp, hnew.state p hpp]
    exact ⟨ha, Or.inl hs⟩

/-- What each call on processes leaves of the keyboard. -/
theorem OpenEffect.keysApart (heffect : OpenEffect k c k') (h : Listed k V) (hp : OpenPromise k c)
    (hc : ProcessCall c) : KeysApart (fun p => c = .kill p) k k' := by
  have hflags : ∀ fg, KeysApart (fun p => c = .kill p) k { k with isForeground := fg } := fun fg =>
    .states rfl rfl rfl rfl rfl rfl fun _ _ _ hs => hs
  cases heffect with
  | same => exact hflags k.isForeground
  | creationFailed => exact hflags _
  | creationCleared pcb => exact (freshPcb_cleared (hp.2.1 pcb).2 _).keysApart h rfl rfl
  | @created r pcb pr fdp =>
      have hnew := freshPcb_created (k := { k with isForeground := yieldedFlags k r })
        (r := { r with parent := k.current }) (hp.2.1 pcb).2 pr fdp
      exact (hflags (yieldedFlags k r)).trans (hnew.keysApart (h.flags _) rfl rfl) rfl fun _ _ _ _ hs => hs
  | exited =>
      exact .states rfl rfl rfl rfl rfl rfl fun p _ hpc hs => (Function.update_of_ne hpc _ _).trans hs
  | @killed p L woken =>
      refine .states rfl rfl rfl rfl rfl rfl fun q hq _ hs => setAll_ready ?_ L
      have hqp : q ≠ p := by
        rintro rfl
        exact hq rfl
      exact (Function.update_of_ne hqp _ _).trans hs
  | waitOver => exact hflags _
  | @waited target ch _ alive other L switched =>
      have hlinked : KeysApart (fun p => OpenCall.wait target ch = .kill p) k
          (waitLinked k target (k.pid target)).blockCurrent :=
        .states rfl rfl rfl rfl rfl rfl fun p _ hpc hs => (Function.update_of_ne hpc _ _).trans hs
      exact hlinked.trans (switched.keysApart _) rfl fun p _ hpc _ hs => (Function.update_of_ne hpc _ _).trans hs
  | waitReturned => exact hflags _
  | switched L switched => exact switched.keysApart _
  | blocked => cases hc
  | readied => cases hc
  | semAllocated => cases hc
  | semOpened => cases hc
  | semClosed => cases hc
  | semTaken => cases hc
  | semQueued => cases hc
  | semIncremented => cases hc
  | semReleased => cases hc
  | semSet => cases hc

end Frames

section Invariant

/-- The processes `L` wait in the queue of the keyboard. The processes `W` were taken from it, or
are in a read and run, and will look into the buffer. -/
structure KeysAwaited (m : Terminal) (L W : List ℕ) : Prop where
  queue : WaitQueue m.kernel m.kernel.kbdSemId L
  queued : ∀ p ∈ L, ∃ r, m.reading p = some r ∧ r.waits = true
  nodup : W.Nodup
  looks : ∀ p ∈ W, p ∉ L ∧ ∃ r, m.reading p = some r ∧ r.chars.length < r.count ∧
    (p ≠ m.kernel.current → r.waits = true ∧ m.kernel.allocated p = true ∧ m.kernel.state p = .ready)
  keys : L = [] ∨ m.kernel.keyboard.size ≤ W.length
  blocked : ∀ p, m.kernel.allocated p = true → m.kernel.waitingOnSem p = m.kernel.kbdSemId → p ∈ L

structure KeysKept (m : Terminal) : Prop where
  lists : ListsKept m.kernel
  kbdSemId : m.kernel.kbdSemId ≠ 0
  unfinished : ∀ p r, m.reading p = some r → r.waits = true → r.chars.length < r.count
  awaited : ∃ L W, KeysAwaited m L W

variable {m m' : Terminal} {b : CircleBuffer} {key : UInt8} {e : KeyEvent}

/-- The variables of the keyboard driver do not matter for the lists. -/
theorem ListsKept.keys (h : ListsKept k) (b : CircleBuffer) (shift capsLock ctrl : Bool) (down : ℕ → Bool) :
    ListsKept
      { k with
        keyboard := b
        activeShift := shift
        activeCapsLock := capsLock
        activeCtrl := ctrl
        keyStates := down } := by
  obtain ⟨V, hV⟩ := h.listed
  refine ⟨⟨h.orderly.terminals, h.orderly.noPipes, h.orderly.valid, h.orderly.current, h.orderly.idle⟩, ⟨V, ?_⟩,
    h.running.waitingOnSem, h.running.nobody⟩
  exact hV.restate ⟨rfl, rfl, rfl, rfl, rfl, rfl, rfl⟩ rfl rfl rfl rfl fun _ hne => absurd rfl hne

theorem ListsKept.cleared (h : ListsKept k) (b : CircleBuffer) :
    ListsKept
      { k with
        keyboard := b
        semaphores := clearedSemaphores k } := by
  obtain ⟨V, hV⟩ := h.listed
  obtain ⟨V', hV', -⟩ := hV.cleared k.isForeground b true
  exact ⟨⟨h.orderly.terminals, h.orderly.noPipes, h.orderly.valid, h.orderly.current, h.orderly.idle⟩,
    ⟨V', hV'⟩, h.running.waitingOnSem, h.running.nobody⟩

/-- The first part of the handler changes the variables of the driver. -/
theorem noted_shape (k : Kernel) (scancode : UInt8) :
    ∃ shift capsLock ctrl down, noteKey (updateFlags k scancode) scancode =
      { k with
        activeShift := shift
        activeCapsLock := capsLock
        activeCtrl := ctrl
        keyStates := down } := by
  have hflags : ∃ shift capsLock ctrl, updateFlags k scancode =
      { k with
        activeShift := shift
        activeCapsLock := capsLock
        activeCtrl := ctrl } := by
    rw [updateFlags]
    split_ifs
    all_goals exact ⟨_, _, _, rfl⟩
  obtain ⟨shift, capsLock, ctrl, heq⟩ := hflags
  rw [noteKey, heq]
  split
  · exact ⟨shift, capsLock, ctrl, _, rfl⟩
  · exact ⟨shift, capsLock, ctrl, _, rfl⟩

theorem Terminal.after_reading (hlive : m.kernel.allocated p = true) {r : TerminalRead} (hr : m.reading p = some r) :
    (m.after k').reading p = some r := by
  rw [Terminal.after]
  dsimp only
  rw [hlive]
  exact hr

theorem Terminal.Settled.ne_current (settled : m.Settled) {r : TerminalRead} (hr : m.reading p = some r) :
    p ≠ m.kernel.current := by
  rintro rfl
  rw [settled] at hr
  cases hr

/-- Who waits in the queue of the keyboard exists. -/
theorem KeysAwaited.live (h : KeysAwaited m L W) (hlists : ListsKept m.kernel) (hp : p ∈ L) :
    m.kernel.allocated p = true := by
  obtain ⟨V, hV⟩ := hlists.listed
  obtain ⟨s, hs, rfl⟩ := hV.sems.waitQueue_iff.mp h.queue
  exact hV.live _ s hs p hp

/-- A call that leaves the keyboard keeps the wake-ups. -/
theorem KeysAwaited.after (h : KeysAwaited m L W) (hlists : ListsKept m.kernel) (settled : m.Settled)
    (hkbd : m.kernel.kbdSemId ≠ 0) (hapart : KeysApart gone m.kernel k') (hgone : ∀ p ∈ W, ¬gone p) :
    KeysAwaited (m.after k') L W := by
  refine ⟨?_, fun p hp => ?_, h.nodup, fun p hp => ?_, ?_, fun p hal hon => ?_⟩
  · rw [show (m.after k').kernel.kbdSemId = _ from hapart.kbdSemId]
    exact hapart.queue L h.queue
  · obtain ⟨r, hr, hwaits⟩ := h.queued p hp
    exact ⟨r, Terminal.after_reading (h.live hlists hp) hr, hwaits⟩
  · obtain ⟨hpL, r, hr, hlt, hother⟩ := h.looks p hp
    have hpc := settled.ne_current hr
    obtain ⟨hwaits, hal, hready⟩ := hother hpc
    obtain ⟨hal', hready'⟩ := hapart.ready p (hgone p hp) hpc hal hready
    exact ⟨hpL, r, Terminal.after_reading hal hr, hlt, fun hpc' => ⟨hwaits, hal', hready'.resolve_right hpc'⟩⟩
  · obtain hnil | hle := h.keys
    · exact Or.inl hnil
    · right
      obtain hsame | hzero := hapart.size
      · rw [show (m.after k').kernel.keyboard.size = _ from hsame]
        exact hle
      · rw [show (m.after k').kernel.keyboard.size = 0 from hzero]
        exact Nat.zero_le _
  · rw [show (m.after k').kernel.kbdSemId = _ from hapart.kbdSemId] at hon
    obtain ⟨hal₀, hsame⟩ | hzero := hapart.waits p hal
    · exact h.blocked p hal₀ (hsame.symm.trans hon)
    · exact absurd (hon.symm.trans hzero) hkbd

/-- A key without a waiting process. -/
theorem KeysAwaited.keyStored (h : KeysAwaited m [] W) (b : CircleBuffer) :
    KeysAwaited { m with kernel := { m.kernel with keyboard := b } } [] W :=
  ⟨h.queue, h.queued, h.nodup, h.looks, Or.inl rfl, h.blocked⟩

/-- A stored key and the signal for it. -/
theorem KeysAwaited.signal (h : KeysAwaited m L W) (hkept : KeysKept m) (settled : m.Settled)
    (hb : b.size = m.kernel.keyboard.size + 1)
    (hsignal : semSignal { m.kernel with keyboard := b } m.kernel.kbdSemId = some k') :
    ∃ L W, KeysAwaited (m.after k') L W := by
  obtain ⟨hlists, hkbd, hunfinished, -⟩ := hkept
  obtain ⟨V, hV⟩ := hlists.listed
  obtain ⟨s, hs, rfl⟩ := hV.sems.waitQueue_iff.mp h.queue
  obtain ⟨i, hi⟩ := hV.sems.get hs
  have hsame : semGetById { m.kernel with keyboard := b } m.kernel.kbdSemId = some i := hi.found
  obtain ⟨w, heffect⟩ := semSignal_effect hsignal
  cases heffect with
  | missing hnone =>
      rw [hsame] at hnone
      cases hnone
  | incremented j found empty =>
      obtain rfl : i = j := Option.some_inj.mp (hsame.symm.trans found)
      have hnil : s.queue = [] := hi.queue.head_eq_null.mp empty
      rw [hnil] at h
      have hapart : KeysApart (fun _ => False) { m.kernel with keyboard := b }
          (setSemValue { m.kernel with keyboard := b } i ((m.kernel.semaphores i).value + 1)) := by
        refine ⟨rfl, Or.inl rfl, fun L hL => hL.congr (fun j => ?_) fun _ _ => rfl, fun p hp => Or.inl ⟨hp, rfl⟩,
          fun p _ _ hal hready => ⟨hal, Or.inl hready⟩⟩
        by_cases hij : j = i
        · subst hij
          dsimp only
          rw [Function.update_self]
          exact ⟨rfl, rfl, rfl, rfl⟩
        · dsimp only
          rw [Function.update_of_ne hij]
          exact ⟨rfl, rfl, rfl, rfl⟩
      have hstored := (h.keyStored b).after (hlists.keys b _ _ _ _) settled hkbd hapart fun _ _ hfalse => hfalse
      exact ⟨[], W, hstored⟩
  | released j w found head ne l needs =>
      obtain rfl : i = j := Option.some_inj.mp (hsame.symm.trans found)
      obtain ⟨hsems, hfirst⟩ := hV.sems.release hs hi head ne
      obtain ⟨L, hL⟩ : ∃ L, s.queue = w :: L := by
        rw [Sems.first_of_some hs] at hfirst
        cases hq : s.queue with
        | nil =>
            rw [hq] at hfirst
            cases hfirst
        | cons x L =>
            rw [hq, List.take_succ_cons, List.take_zero] at hfirst
            exact ⟨L, by rw [List.singleton_inj.mp hfirst]⟩
      have hqueue : WaitQueue (releasedKernel m.kernel i w) m.kernel.kbdSemId L := by
        rw [hsems.waitQueue_iff]
        refine ⟨s.signal, Function.update_self .., ?_⟩
        rw [CountingSemaphore.signal_of_cons hL]
      have hnodup : w ∉ L := (List.nodup_cons.mp (hL ▸ hV.sems.nodup hs)).1
      rw [hL] at h
      refine ⟨L, w :: W, hqueue, fun p hp => ?_, ?_, List.forall_mem_cons.mpr ⟨?_, fun p hp => ?_⟩, ?_,
        fun p hal hon => ?_⟩
      · have hp' := List.mem_cons_of_mem w hp
        obtain ⟨r, hr, hwaits⟩ := h.queued p hp'
        exact ⟨r, Terminal.after_reading (h.live hlists hp') hr, hwaits⟩
      · exact List.nodup_cons.mpr ⟨fun hw => (h.looks w hw).1 List.mem_cons_self, h.nodup⟩
      · obtain ⟨r, hr, hwaits⟩ := h.queued w List.mem_cons_self
        have hal := h.live hlists List.mem_cons_self
        exact ⟨hnodup, r, Terminal.after_reading hal hr, hunfinished w r hr hwaits,
          fun _ => ⟨hwaits, hal, Function.update_self ..⟩⟩
      · obtain ⟨hpL, r, hr, hlt, hother⟩ := h.looks p hp
        obtain ⟨hwaits, hal, hready⟩ := hother (settled.ne_current hr)
        have hpw : p ≠ w := fun he => hpL (he ▸ List.mem_cons_self)
        exact ⟨fun hm => hpL (List.mem_cons_of_mem w hm), r, Terminal.after_reading hal hr, hlt,
          fun _ => ⟨hwaits, hal, (Function.update_of_ne hpw _ _).trans hready⟩⟩
      · have hle := h.keys.resolve_left (List.cons_ne_nil w L)
        right
        rw [List.length_cons]
        exact hb.trans_le (Nat.add_le_add_right hle 1)
      · have hpw : p ≠ w := by
          rintro rfl
          exact hkbd (hon.symm.trans (Function.update_self ..))
        have hon' : m.kernel.waitingOnSem p = m.kernel.kbdSemId :=
          (Function.update_of_ne hpw _ _).symm.trans hon
        exact List.mem_of_ne_of_mem hpw (h.blocked p hal hon')

end Invariant

section Interrupts

variable {m m' : Terminal} {key : UInt8} {e : KeyEvent} {gone : ℕ → Prop}

theorem KeysKept.after (h : KeysKept m) (settled : m.Settled) (hlists : ListsKept k')
    (hapart : KeysApart gone m.kernel k') (hgone : ∀ p, gone p → m.reading p = none) : KeysKept (m.after k') := by
  obtain ⟨L, W, hawaited⟩ := h.awaited
  refine ⟨hlists, ?_, fun p r hr hwaits => ?_, L, W, ?_⟩
  · rw [show (m.after k').kernel.kbdSemId = _ from hapart.kbdSemId]
    exact h.kbdSemId
  · rw [Terminal.after] at hr
    dsimp only at hr
    split at hr
    · exact h.unfinished p r hr hwaits
    · cases hr
  · apply hawaited.after h.lists settled h.kbdSemId hapart
    intro p hp hg
    obtain ⟨-, r, hr, -⟩ := hawaited.looks p hp
    rw [hgone p hg] at hr
    cases hr

/-- The calls on processes. -/
theorem KeysKept.apart (h : KeysKept m) (hp : OpenPromise m.kernel c) (hc : ProcessCall c)
    (hsafe : KillsSpared m c) (hstep : openExec m.kernel c = some k') :
    ListsKept k' ∧ KeysApart (fun p => c = .kill p) m.kernel k' := by
  have hwait : WaitListSafe m.kernel c := by
    cases c with
    | kill p => exact hsafe.2
    | unblock p => exact hc.elim
    | _ => trivial
  obtain ⟨V, hV⟩ := h.lists.listed
  refine ⟨h.lists.step hp hwait hstep, ?_⟩
  obtain ⟨k₁, s, heffect, rfl⟩ := openExec_effect h.lists.orderly hp hstep
  have hapart := heffect.keysApart hV hp hc
  exact ⟨hapart.kbdSemId, hapart.size, hapart.queue, hapart.waits, hapart.ready⟩

theorem KeysKept.call (h : KeysKept m) (settled : m.Settled) (hp : OpenPromise m.kernel c) (hc : ProcessCall c)
    (hsafe : KillsSpared m c) (hstep : openExec m.kernel c = some k') : KeysKept (m.after k') := by
  obtain ⟨hlists, hapart⟩ := h.apart hp hc hsafe hstep
  refine h.after settled hlists hapart fun p hkill => ?_
  subst hkill
  exact hsafe.1

theorem KeysApart.cleared (h : KeysApart gone k k₁) :
    KeysApart gone k
      { k₁ with
        keyboard := bufferClear k₁.keyboard
        semaphores := clearedSemaphores k₁ } :=
  ⟨h.kbdSemId, Or.inr rfl, fun L hL => (h.queue L hL).congr (clearedSemaphores_queue k₁) fun _ _ => rfl,
    h.waits, h.ready⟩

theorem KeysApart.refl (gone : ℕ → Prop) (k : Kernel) : KeysApart gone k k :=
  .states rfl rfl rfl rfl rfl rfl fun _ _ _ hs => hs

/-- Ctrl+C. -/
theorem KeysKept.interrupted (h : KeysKept m) (settled : m.Settled) {p : ℕ} (hfound : p ≠ 0 → Found m.kernel p)
    (hspared : p ≠ 0 → Spared m p) (hkill : (if p = 0 then some m.kernel else killProcess m.kernel p) = some k₁)
    (hclear : keyboardClearBuffer k₁ = some k') : KeysKept (m.after k') := by
  rw [keyboardClearBuffer_eq, Option.some_inj] at hclear
  subst hclear
  split at hkill
  · cases hkill
    exact h.after settled (h.lists.cleared _) (KeysApart.refl (fun _ => False) m.kernel).cleared
      fun _ hfalse => hfalse.elim
  · rename_i hp
    obtain ⟨hlists, hapart⟩ := h.apart (hfound hp) (c := .kill p) trivial (hspared hp) hkill
    refine h.after settled (hlists.cleared _) hapart.cleared fun q hq => ?_
    cases hq
    exact (hspared hp).1

/-- An ordinary key or Ctrl+D. -/
theorem KeysKept.pushKey (h : KeysKept m) (settled : m.Settled)
    (hpush : SoKernel.pushKey m.kernel key = some (e, k')) : KeysKept (m.after k') := by
  rw [SoKernel.pushKey] at hpush
  by_cases hfull : m.kernel.keyboard.size = bufferSize
  · rw [bufferPush_full hfull] at hpush
    cases hpush
    exact h.after settled h.lists (KeysApart.refl (fun _ => False) m.kernel) fun _ hfalse => hfalse.elim
  · rw [bufferPush_room hfull] at hpush
    dsimp only at hpush
    rw [if_pos h.kbdSemId] at hpush
    obtain ⟨k₁, hsignal, heq⟩ := Option.map_eq_some_iff.mp hpush
    cases heq
    obtain ⟨L, W, hawaited⟩ := h.awaited
    refine ⟨?_, ?_, fun p r hr hwaits => ?_, hawaited.signal h settled rfl hsignal⟩
    · exact ListsKept.step (c := .semSignal m.kernel.kbdSemId) (h.lists.keys _ _ _ _ _) trivial trivial hsignal
    · obtain ⟨w, heffect⟩ := semSignal_effect hsignal
      cases heffect with
      | missing => exact h.kbdSemId
      | incremented => exact h.kbdSemId
      | released => exact h.kbdSemId
    · rw [Terminal.after] at hr
      dsimp only at hr
      split at hr
      · exact h.unfinished p r hr hwaits
      · cases hr

/-- Ctrl+C destroys nobody. -/
theorem KeysKept.interrupted_allocated (h : KeysKept m) {p : ℕ} (hfound : p ≠ 0 → Found m.kernel p)
    (hkill : (if p = 0 then some m.kernel else killProcess m.kernel p) = some k₁)
    (hclear : keyboardClearBuffer k₁ = some k') : k'.allocated = m.kernel.allocated := by
  rw [keyboardClearBuffer_eq, Option.some_inj] at hclear
  subst hclear
  split at hkill
  · cases hkill
    rfl
  · rename_i hp
    obtain ⟨k₂, s, heffect, rfl⟩ := openExec_effect (c := .kill p) h.lists.orderly (hfound hp) hkill
    cases heffect with
    | same => rfl
    | killed => rfl

theorem pushKey_allocated (hpush : SoKernel.pushKey k key = some (e, k')) : k'.allocated = k.allocated := by
  rw [SoKernel.pushKey] at hpush
  by_cases hfull : k.keyboard.size = bufferSize
  · rw [bufferPush_full hfull] at hpush
    cases hpush
    rfl
  · rw [bufferPush_room hfull] at hpush
    dsimp only at hpush
    split at hpush
    · obtain ⟨k₁, hsignal, heq⟩ := Option.map_eq_some_iff.mp hpush
      cases heq
      obtain ⟨w, heffect⟩ := semSignal_effect hsignal
      cases heffect with
      | missing => rfl
      | incremented => rfl
      | released => rfl
    · cases hpush
      rfl

/-- The keyboard interrupt. -/
theorem KeysKept.interrupt (h : KeysKept m) {scancode : UInt8} {foreground : Option ℕ} (settled : m.Settled)
    (hfound : ∀ p, foreground = some p → p ≠ 0 → Found m.kernel p)
    (hsafe : ∀ p, foreground = some p → p ≠ 0 → Spared m p)
    (hkey : interruptBy m.kernel scancode foreground = some (e, k')) :
    KeysKept (m.after k') ∧ k'.allocated = m.kernel.allocated := by
  obtain ⟨shift, capsLock, ctrl, down, hnoted⟩ := noted_shape m.kernel scancode
  rw [interruptBy.eq_def] at hkey
  rw [hnoted] at hkey
  dsimp only at hkey
  have hnow : KeysKept
      { m with
        kernel :=
          { m.kernel with
            activeShift := shift
            activeCapsLock := capsLock
            activeCtrl := ctrl
            keyStates := down } } := by
    obtain ⟨L, W, hw⟩ := h.awaited
    exact ⟨h.lists.keys _ _ _ _ _, h.kbdSemId, h.unfinished, L, W, hw.queue, hw.queued, hw.nodup, hw.looks,
      hw.keys, hw.blocked⟩
  split at hkey
  · cases foreground with
    | none =>
        cases hkey
        exact ⟨hnow.after settled hnow.lists (KeysApart.refl (fun _ => False) _) fun _ hfalse => hfalse.elim, rfl⟩
    | some p =>
        obtain ⟨k₁, hkill, hrest⟩ := Option.bind_eq_some_iff.mp hkey
        obtain ⟨k₂, hclear, heq⟩ := Option.map_eq_some_iff.mp hrest
        cases heq
        exact ⟨hnow.interrupted settled (hfound p rfl) (hsafe p rfl) hkill hclear,
          hnow.interrupted_allocated (hfound p rfl) hkill hclear⟩
  split at hkey
  · exact ⟨hnow.pushKey settled hkey, (pushKey_allocated hkey).trans rfl⟩
  split at hkey
  · exact ⟨hnow.pushKey settled hkey, (pushKey_allocated hkey).trans rfl⟩
  · cases hkey
    exact ⟨hnow.after settled hnow.lists (KeysApart.refl (fun _ => False) _) fun _ hfalse => hfalse.elim, rfl⟩

end Interrupts

section Reads

variable {m m' : Terminal} {r : TerminalRead}

/-- The current process does not wait in the queue of the keyboard. -/
theorem KeysAwaited.current_not_mem (h : KeysAwaited m L W) (hlists : ListsKept m.kernel) :
    m.kernel.current ∉ L := by
  obtain ⟨V, hV⟩ := hlists.listed
  obtain ⟨s, hs, rfl⟩ := hV.sems.waitQueue_iff.mp h.queue
  exact hV.not_mem_queue hs hlists.running.waitingOnSem

/-- The current process has taken a key, or there is none, or it did not count. -/
theorem KeysAwaited.looked (h : KeysAwaited m L W) (hlists : ListsKept m.kernel) (b : CircleBuffer)
    (x : Option TerminalRead) (hkeys : m.kernel.keyboard.size ≤ W.length → b.size ≤ (W.erase m.kernel.current).length) :
    KeysAwaited (Terminal.goOn { m with kernel := { m.kernel with keyboard := b } } x) L (W.erase m.kernel.current) := by
  have hother : ∀ p, p ≠ m.kernel.current → update m.reading m.kernel.current x p = m.reading p := fun p hp =>
    Function.update_of_ne hp _ _
  refine ⟨h.queue, fun p hp => ?_, h.nodup.erase _, fun p hp => ?_, h.keys.imp id hkeys, h.blocked⟩
  · have hpc : p ≠ m.kernel.current := fun he => h.current_not_mem hlists (he ▸ hp)
    obtain ⟨r, hr, hwaits⟩ := h.queued p hp
    exact ⟨r, (hother p hpc).trans hr, hwaits⟩
  · obtain ⟨hpc, hpW⟩ := h.nodup.mem_erase_iff.mp hp
    obtain ⟨hpL, r, hr, hlt, hready⟩ := h.looks p hpW
    exact ⟨hpL, r, (hother p hpc).trans hr, hlt, hready⟩

/-- The current process goes on with its read. -/
theorem KeysKept.goOn (h : KeysKept m) (b : CircleBuffer) (x : Option TerminalRead)
    (hx : ∀ r, x = some r → r.waits = true → r.chars.length < r.count)
    (hawaited : ∃ L W, KeysAwaited (Terminal.goOn { m with kernel := { m.kernel with keyboard := b } } x) L W) :
    KeysKept (Terminal.goOn { m with kernel := { m.kernel with keyboard := b } } x) := by
  refine ⟨h.lists.keys b _ _ _ _, h.kbdSemId, fun p r hr hwaits => ?_, hawaited⟩
  rw [Terminal.goOn] at hr
  dsimp only at hr
  by_cases hp : p = m.kernel.current
  · rw [hp, Function.update_self] at hr
    exact hx r hr hwaits
  · rw [Function.update_of_ne hp] at hr
    exact h.unfinished p r hr hwaits

/-- A turn of the loop of `syscall_read`. -/
theorem KeysKept.readChar (h : KeysKept m) (hr : m.reading m.kernel.current = some r) (hwaits : r.waits = false) :
    KeysKept (m.readChar r) := by
  obtain ⟨L, W, hw⟩ := h.awaited
  have hlooked : ∀ (b : CircleBuffer) (x : Option TerminalRead),
      (∀ r, x = some r → r.waits = true → r.chars.length < r.count) →
      (m.kernel.keyboard.size ≤ W.length → b.size ≤ (W.erase m.kernel.current).length) →
      KeysKept (Terminal.goOn { m with kernel := { m.kernel with keyboard := b } } x) := fun b x hx hkeys =>
    h.goOn b x hx ⟨L, _, hw.looked h.lists b x hkeys⟩
  rw [Terminal.readChar]
  split
  · rename_i hfull
    have hnot : m.kernel.current ∉ W := by
      intro hm
      obtain ⟨-, r', hr', hlt, -⟩ := hw.looks _ hm
      rw [hr, Option.some_inj] at hr'
      subst hr'
      omega
    refine hlooked m.kernel.keyboard none (fun r he => ?_) fun hle => ?_
    · cases he
    · rw [List.erase_of_not_mem hnot]
      exact hle
  · rename_i hroom
    -- one key fewer, or none at all
    have hkeys : m.kernel.keyboard.size ≤ W.length →
        (bufferPop m.kernel.keyboard).2.size ≤ (W.erase m.kernel.current).length := by
      intro hle
      have herase : W.length - 1 ≤ (W.erase m.kernel.current).length := by
        rw [List.length_erase]
        split
        · exact le_rfl
        · exact Nat.sub_le _ _
      by_cases hempty : m.kernel.keyboard.size = 0
      · rw [bufferPop_empty hempty, hempty]
        exact Nat.zero_le _
      · rw [bufferPop_nonempty hempty]
        exact (Nat.sub_le_sub_right hle 1).trans herase
    rw [keyboardReadGetchar]
    dsimp only
    split
    · refine hlooked _ _ (fun r' he _ => ?_) hkeys
      cases he
      exact not_le.mp hroom
    split
    · exact hlooked _ none (fun r he => by cases he) hkeys
    split
    · exact hlooked _ none (fun r he => by cases he) hkeys
    · refine hlooked _ _ (fun r' he hw' => ?_) hkeys
      cases he
      rw [show r.waits = true from hw'] at hwaits
      cases hwaits

/-- The buffer is empty and `sem_wait_by_id` takes a token or blocks. -/
theorem KeysKept.semWaited (h : KeysKept m) (hr : m.reading m.kernel.current = some r) (hwaits : r.waits = true)
    (hempty : m.kernel.keyboard.size = 0) (hp : OpenPromise m.kernel (.semWait m.kernel.kbdSemId ch))
    (hstep : semWaitBy m.kernel m.kernel.kbdSemId ch = some k') : KeysKept { m with kernel := k' } := by
  have hlists : ListsKept k' := h.lists.step (c := .semWait m.kernel.kbdSemId ch) hp trivial hstep
  obtain ⟨L, W, hw⟩ := h.awaited
  obtain ⟨V, hV⟩ := h.lists.listed
  obtain ⟨k₁, s, heffect, rfl⟩ := openExec_effect (c := .semWait m.kernel.kbdSemId ch) h.lists.orderly hp hstep
  -- nobody needs to look into an empty buffer
  have hkept : ∀ M, k₁.kbdSemId = m.kernel.kbdSemId → k₁.keyboard.size = 0 →
      WaitQueue k₁ m.kernel.kbdSemId M → (∀ p ∈ M, p ∈ L ∨ p = m.kernel.current) →
      (∀ p, k₁.allocated p = true → k₁.waitingOnSem p = m.kernel.kbdSemId → p ∈ M) →
      KeysKept { m with kernel := k₁.resched s } := by
    intro M hkbd hsize hqueue hM hblocked
    refine ⟨hlists, hkbd.trans_ne h.kbdSemId, h.unfinished, M, [], ?_, fun p hp => ?_, List.nodup_nil,
      fun p hp => absurd hp List.not_mem_nil, Or.inr hsize.le, fun p hal hon => hblocked p hal (hon.trans hkbd)⟩
    · exact hkbd.symm ▸ hqueue
    · obtain hpL | rfl := hM p hp
      · exact hw.queued p hpL
      · exact ⟨r, hr, hwaits⟩
  cases heffect with
  | same => exact hkept L rfl hempty hw.queue (fun p hp => Or.inl hp) hw.blocked
  | semTaken i found positive =>
      refine hkept L rfl hempty (hw.queue.congr (fun j => ?_) fun _ _ => rfl) (fun p hp => Or.inl hp) hw.blocked
      by_cases hij : j = i
      · subst hij
        dsimp only
        rw [Function.update_self]
        exact ⟨rfl, rfl, rfl, rfl⟩
      · dsimp only
        rw [Function.update_of_ne hij]
        exact ⟨rfl, rfl, rfl, rfl⟩
  | @semQueued _ _ _ i found none M switched =>
      obtain ⟨t, ht, rfl⟩ := hV.sems.waitQueue_iff.mp hw.queue
      have haway : Away m.kernel V := fun id' s' hs' => hV.not_mem_queue hs' h.lists.running.waitingOnSem
      have hsems := hV.sems.semLinked haway hp.1 ht found none
      have hlinked : WaitQueue (semLinked m.kernel i).blockCurrent m.kernel.kbdSemId (t.queue ++ [m.kernel.current]) :=
        hsems.waitQueue_iff.mpr ⟨t.enqueue m.kernel.current, Function.update_self .., rfl⟩
      obtain ⟨hi, hu, hid⟩ := semGetById_mem found
      obtain ⟨sems, swn, hshape⟩ := enqueueWaiter_shape
        { m.kernel with waitingOnSem := update m.kernel.waitingOnSem m.kernel.current (m.kernel.semaphores i).id } i
        m.kernel.current
      have hapart := switched.keysApart (fun _ => False)
      rw [semLinked, hshape] at hapart hlinked
      refine hkept (t.queue ++ [m.kernel.current]) hapart.kbdSemId ?_ (hapart.queue _ hlinked) (fun p hp => ?_)
        fun p hal hon => ?_
      · obtain hsame | hzero := hapart.size
        · exact hsame.trans hempty
        · exact hzero
      · exact (List.mem_append.mp hp).imp id List.mem_singleton.mp
      · obtain ⟨hal', hsame⟩ | hzero := hapart.waits p hal
        · by_cases hpc : p = m.kernel.current
          · exact List.mem_append_right _ (List.mem_singleton.mpr hpc)
          · rw [hsame] at hon
            exact List.mem_append_left _ (hw.blocked p hal' ((Function.update_of_ne hpc _ _).symm.trans hon))
        · exact absurd (hon.symm.trans hzero) h.kbdSemId

/-- `syscall_read` up to its loop. -/
theorem KeysKept.read (h : KeysKept m) {fd count : ℤ} {buffer : ℕ} (settled : m.Settled) (hcall : Caller m.kernel)
    (hstep : m.syscallRead fd buffer count = some m') : KeysKept m' := by
  have hsame : ∀ {m₁ : Terminal}, some m = some m₁ → KeysKept m₁ := fun heq => Option.some_inj.mp heq ▸ h
  obtain ⟨L, W, hw⟩ := h.awaited
  rw [Terminal.syscallRead] at hstep
  split at hstep
  · exact hsame hstep
  split at hstep
  · exact hsame hstep
  split at hstep
  · split at hstep
    · exact hsame hstep
    split at hstep
    · -- the caller is in the background and blocks
      obtain ⟨k₁, hblock, rfl⟩ := Option.map_eq_some_iff.mp hstep
      have hfound : Found m.kernel m.kernel.current := ⟨h.lists.orderly.current, hcall.2⟩
      have hlists : ListsKept k₁ := h.lists.step (c := .block m.kernel.current) hfound trivial hblock
      rw [blockFound, if_pos rfl, Option.some_inj] at hblock
      subst hblock
      refine ⟨hlists, h.kbdSemId, h.unfinished, L, W, hw.queue, hw.queued, hw.nodup, fun p hp => ?_, hw.keys, hw.blocked⟩
      obtain ⟨hpL, r, hr, hlt, hother⟩ := hw.looks p hp
      refine ⟨hpL, r, hr, hlt, fun hpc => ?_⟩
      obtain ⟨hwaits, hal, hready⟩ := hother hpc
      exact ⟨hwaits, hal, (Function.update_of_ne hpc _ _).trans hready⟩
    · rw [Option.some_inj] at hstep
      subst hstep
      have hnot : m.kernel.current ∉ W := by
        intro hm
        obtain ⟨-, r, hr, -⟩ := hw.looks _ hm
        exact settled.ne_current hr rfl
      refine h.goOn m.kernel.keyboard _ (fun r he hwaits => ?_) ⟨L, _, hw.looked h.lists _ _ fun hle => ?_⟩
      · cases he
        cases hwaits
      · rw [List.erase_of_not_mem hnot]
        exact hle
  · exact hsame hstep

/-- A turn of the loop of `keyboard_wait_for_char` that finds a key. -/
theorem KeysKept.waitForChar {semWait : Kernel → ℕ → Option Kernel} (h : KeysKept m)
    (hr : m.reading m.kernel.current = some r) (hwaits : r.waits = true)
    (hkey : ¬bufferEmpty m.kernel.keyboard = true) (hstep : m.waitForChar semWait r = some m') : KeysKept m' := by
  rw [Terminal.waitForChar, if_neg hkey, Option.some_inj] at hstep
  subst hstep
  obtain ⟨L, W, hw⟩ := h.awaited
  have hother : ∀ p, p ≠ m.kernel.current →
      update m.reading m.kernel.current (some { r with waits := false }) p = m.reading p := fun p hp =>
    Function.update_of_ne hp _ _
  have hlt := h.unfinished _ r hr hwaits
  refine h.goOn m.kernel.keyboard _ (fun r' he hw' => ?_) ⟨L, W, hw.queue, fun p hp => ?_, hw.nodup,
    fun p hp => ?_, hw.keys, hw.blocked⟩
  · cases he
    cases hw'
  · have hpc : p ≠ m.kernel.current := fun he => hw.current_not_mem h.lists (he ▸ hp)
    obtain ⟨r', hr', hwaits'⟩ := hw.queued p hp
    exact ⟨r', (hother p hpc).trans hr', hwaits'⟩
  · obtain ⟨hpL, r', hr', hlt', hready⟩ := hw.looks p hp
    refine ⟨hpL, ?_⟩
    by_cases hpc : p = m.kernel.current
    · subst hpc
      exact ⟨_, Function.update_self .., hlt, fun hne => absurd rfl hne⟩
    · exact ⟨r', (hother p hpc).trans hr', hlt', hready⟩

end Reads

section Moves

variable {m m' : Terminal} {r : TerminalRead} {a : TerminalMove} {frame : Frame}

/-- The part of the scheduler does not matter for the keyboard. -/
theorem KeysKept.resched (h : KeysKept m) (s : Sched) : KeysKept { m with kernel := m.kernel.resched s } := by
  obtain ⟨L, W, hw⟩ := h.awaited
  exact ⟨h.lists.resched s, h.kbdSemId, h.unfinished, L, W, hw.queue, hw.queued, hw.nodup, hw.looks, hw.keys,
    hw.blocked⟩

/-- The calls on processes are open calls on processes. -/
theorem OpensAs.onProcesses {call : Call} (h : OpensAs k call c) (hcall : call.OnProcesses) : ProcessCall c := by
  cases h with
  | blockCurrent | block | unblockProcess | unblock | semAlloc | semOpen | semClose | semTaken | semWait | semSignal
  | semSet => exact hcall.elim
  | _ => trivial

theorem KeysKept.execCall (h : KeysKept m) (haddr : Addressed m.kernel) {call : Call} {o : Outcome}
    (hcall : m.Settled ∧ call.OnProcesses) (hsafe : call.Allowed (fun _ => KillsSpared m) m.kernel)
    (hstep : exec m.kernel call = some o) : KeysKept (m.after o.kernel) ∧ Addressed o.kernel := by
  obtain ⟨s, c, hopens, hp, hopen⟩ := exec_isOpen h.lists.orderly haddr hsafe.made hsafe.answered hstep
  have hspared : KillsSpared { m with kernel := m.kernel.resched s } c := by
    have hmeets := hsafe.meets c hopens
    cases c with
    | kill p => exact hmeets
    | _ => trivial
  exact ⟨(h.resched s).call hcall.1 hp (hopens.onProcesses hcall.2) hspared hopen,
    (openExec_kept (h.resched s).lists.orderly haddr hp hopen).2⟩

theorem KeysKept.execKey (h : KeysKept m) (haddr : Addressed m.kernel) (settled : m.Settled) {scancode : UInt8}
    {x : KeyEvent × Kernel} (hsafe : KeySafe m (.key scancode))
    (hstep : keyboardInterruptHandler m.kernel scancode = some x) : KeysKept (m.after x.2) ∧ Addressed x.2 := by
  obtain ⟨foreground, hkey, hsearch⟩ := keyboardInterruptHandler_by hstep
  obtain ⟨shift, capsLock, ctrl, down, hnoted⟩ := noted_shape m.kernel scancode
  -- the variables of the driver do not matter for the searches
  have hfinds : ∀ p, foreground = some p → p ≠ 0 → Found m.kernel p ∧ Spared m p := by
    intro p hp hp0
    obtain ⟨hctrl, pid, hpid, hpid0, hfind⟩ := hsearch p hp
    rw [noted, hnoted] at hpid hfind
    obtain ⟨hidle, hliving, hspared⟩ := hsafe hctrl pid hpid hpid0
    exact ⟨found_of_search hliving hidle hfind hp0, hspared p hfind hp0⟩
  obtain ⟨e, k'⟩ := x
  obtain ⟨hkept, hal⟩ := h.interrupt settled (fun p hp hp0 => (hfinds p hp hp0).1)
    (fun p hp hp0 => (hfinds p hp hp0).2) hkey
  refine ⟨hkept, fun p hp => ?_⟩
  rw [hal] at hp
  exact haddr p hp

/-- `syscall_read` up to its loop and a turn of the loop of `syscall_read` destroy nobody. -/
theorem Terminal.syscallRead_allocated {fd count : ℤ} {buffer : ℕ} (h : m.syscallRead fd buffer count = some m') :
    m'.kernel.allocated = m.kernel.allocated := by
  have hsame : some m = some m' → m'.kernel.allocated = m.kernel.allocated := by
    intro heq
    cases heq
    rfl
  rw [Terminal.syscallRead] at h
  split at h
  · exact hsame h
  split at h
  · exact hsame h
  split at h
  · split at h
    · exact hsame h
    split at h
    · obtain ⟨k₁, hblock, rfl⟩ := Option.map_eq_some_iff.mp h
      rw [blockFound, if_pos rfl, Option.some_inj] at hblock
      subst hblock
      rfl
    · cases h
      rfl
  · exact hsame h

theorem Terminal.readChar_allocated : (m.readChar r).kernel.allocated = m.kernel.allocated := by
  rw [Terminal.readChar]
  split
  · rfl
  rw [keyboardReadGetchar]
  dsimp only
  split_ifs <;> rfl

theorem KeysKept.execTurn (h : KeysKept m) (haddr : Addressed m.kernel) (hcall : Caller m.kernel)
    (hsafe : KeySafe m (.turn frame))
    (hstep : m.turn (fun k id => (semWaitById k id frame).map Outcome.kernel) = some m') :
    KeysKept m' ∧ Addressed m'.kernel := by
  rw [Terminal.turn] at hstep
  cases hr : m.reading m.kernel.current with
  | none =>
      rw [hr, Option.some_inj] at hstep
      exact hstep ▸ ⟨h, haddr⟩
  | some r =>
      rw [hr] at hstep
      dsimp only at hstep
      cases hwaits : r.waits with
      | false =>
          rw [if_neg (by simp [hwaits]), Option.some_inj] at hstep
          subst hstep
          refine ⟨h.readChar hr hwaits, fun p hp => haddr p ?_⟩
          rwa [Terminal.readChar_allocated] at hp
      | true =>
          rw [if_pos hwaits] at hstep
          by_cases hempty : bufferEmpty m.kernel.keyboard = true
          · rw [Terminal.waitForChar, if_pos hempty, if_pos h.kbdSemId] at hstep
            obtain ⟨k₁, hwait, rfl⟩ := Option.map_eq_some_iff.mp hstep
            obtain ⟨o, hexec, rfl⟩ := Option.map_eq_some_iff.mp hwait
            obtain ⟨s, c, hopens, hp, hopen⟩ := exec_isOpen (c := .semWait m.kernel.kbdSemId frame) h.lists.orderly
              haddr hcall (hsafe r hr hwaits hempty) hexec
            have haddr' := (openExec_kept (h.resched s).lists.orderly haddr hp hopen).2
            cases hopens with
            | quiet s' goesOn => exact absurd trivial goesOn
            | semTaken goesOn nobody =>
                exact ⟨(h.resched s).semWaited hr hwaits (of_decide_eq_true hempty) hp hopen, haddr'⟩
            | semWait queued collects =>
                exact ⟨(h.resched s).semWaited hr hwaits (of_decide_eq_true hempty) hp hopen, haddr'⟩
          · refine ⟨h.waitForChar hr hwaits hempty hstep, ?_⟩
            rw [Terminal.waitForChar, if_neg hempty, Option.some_inj] at hstep
            exact hstep ▸ haddr

/-- Every safe move keeps the wake-ups. -/
theorem KeysKept.step (h : KeysKept m) (haddr : Addressed m.kernel) (htimely : a.Timely m) (hsafe : KeySafe m a)
    (hstep : terminalMove m a = some m') : KeysKept m' ∧ Addressed m'.kernel := by
  cases a with
  | call c =>
      obtain ⟨o, hexec, rfl⟩ := Option.map_eq_some_iff.mp hstep
      exact h.execCall haddr htimely hsafe hexec
  | key scancode =>
      obtain ⟨x, hkey, rfl⟩ := Option.map_eq_some_iff.mp hstep
      exact h.execKey haddr htimely hsafe hkey
  | read fd buffer count =>
      refine ⟨h.read htimely.1 htimely.2 hstep, fun p hp => haddr p ?_⟩
      rwa [Terminal.syscallRead_allocated hstep] at hp
  | turn frame => exact h.execTurn haddr htimely hsafe hstep

end Moves

section Runs

variable {m : Terminal}

/-- After the start there is no key and nobody reads. -/
theorem Booted.keysKept {idle shell : ℕ} (h : Booted k idle shell) : KeysKept ⟨k, fun _ => none⟩ := by
  have hfirst : semGetById k 1 = some 0 := by
    rw [semGetById, if_neg one_ne_zero, findSlotById, List.find?_range_eq_some]
    refine ⟨?_, List.mem_range.mpr (by decide), fun j hj => absurd hj (Nat.not_lt_zero j)⟩
    rw [h.semaphores.1]
    rfl
  refine ⟨h.listsKept, h.kbdSemId.trans_ne one_ne_zero, fun p r hr => ?_, [], [], ?_, by simp, List.nodup_nil,
    by simp, Or.inl rfl, fun p _ hon => ?_⟩
  · cases hr
  · refine ⟨0, h.kbdSemId ▸ hfirst, ?_⟩
    rw [h.semaphores.1]
    exact ⟨rfl, rfl⟩
  · rw [show k.waitingOnSem p = 0 from h.waitingOnSem p, show k.kbdSemId = 1 from h.kbdSemId] at hon
    cases hon

theorem TerminalRun.keysKept {start : Terminal} {steps : List (Terminal × TerminalMove)}
    (run : TerminalRun start steps m) (hstart : KeysKept start) (haddr : Addressed start.kernel)
    (hsafe : ∀ st ∈ steps, KeySafe st.1 st.2) : KeysKept m ∧ Addressed m.kernel := by
  induction run with
  | nil => exact ⟨hstart, haddr⟩
  | snoc run timely step ih =>
      obtain ⟨hkept, haddr'⟩ := ih fun st hst => hsafe st (List.mem_append_left _ hst)
      exact hkept.step haddr' timely (hsafe _ (List.mem_append_right _ (List.mem_singleton_self _))) step

/-- In every run from the start of the system in which no process is killed that is in a terminal
read or waits for another process: while there is a key in the buffer, nobody is blocked on the
semaphore of the keyboard, or a process that was taken from its queue is ready and has not looked
into the buffer. -/
theorem keys_noticed {idle idleStack shell shellStack entryPoint : ℕ} {k₀ : Kernel}
    {steps : List (Terminal × TerminalMove)} (hm : BootMemory idle idleStack shell shellStack entryPoint)
    (hidle : idle < addressCount) (hshell : shell < addressCount)
    (hboot : bootSystem idle idleStack shell shellStack entryPoint = some k₀)
    (run : TerminalRun ⟨k₀, fun _ => none⟩ steps m) (hsafe : ∀ st ∈ steps, KeySafe st.1 st.2)
    (settled : m.Settled) : KeysNoticed m := by
  have hstart := bootSystem_spec hm hboot
  obtain ⟨hkept, -⟩ := run.keysKept hstart.keysKept (hstart.addressed hidle hshell) hsafe
  obtain ⟨L, W, hw⟩ := hkept.awaited
  intro hkey
  obtain rfl | hle := hw.keys
  · left
    rintro p ⟨hal, -, hon⟩
    exact List.not_mem_nil (hw.blocked p hal hon)
  · right
    obtain ⟨p, hp⟩ := List.exists_mem_of_length_pos (Nat.pos_of_ne_zero hkey |>.trans_le hle)
    obtain ⟨hpL, r, hr, -, hother⟩ := hw.looks p hp
    obtain ⟨hwaits, hal, hready⟩ := hother (settled.ne_current hr)
    exact ⟨p, hal, hready, ⟨r, hr, hwaits⟩, fun M hM => hw.queue.unique hM ▸ hpL⟩

/-- The theorem at a run: the shell waits for a key and a key is pressed. -/
theorem keys_noticed_letter :
    ∃ k₀ steps m, bootSystem 16 8192 48 12288 1 = some k₀ ∧ TerminalRun ⟨k₀, fun _ => none⟩ steps m ∧
      m.kernel.keyboard.size = 1 ∧ m.kernel.waitingOnSem 48 = 0 ∧ m.kernel.state 48 = .ready ∧ KeysNoticed m := by
  have hlt : 48 < addressCount := by
    unfold addressCount
    decide
  let frame : Frame := ⟨0, fun _ => 0⟩
  have hcalc : ((bootSystem 16 8192 48 12288 1).bind fun k₀ =>
      (terminalMove ⟨k₀, fun _ => none⟩ (.call (.tick frame))).bind fun m₁ =>
        (terminalMove m₁ (.read 0 1 1)).bind fun m₂ => (terminalMove m₂ (.turn frame)).bind fun m₃ =>
          (terminalMove m₃ (.turn frame)).bind fun m₄ => (terminalMove m₄ (.key 0x1E)).map fun m₅ =>
            decide (k₀.state k₀.current = .running ∧
              (Caller m₁.kernel ∧ m₁.reading m₁.kernel.current = none) ∧
              (Caller m₂.kernel ∧ (m₂.reading m₂.kernel.current).all fun r => r.waits = false) ∧
              (Caller m₃.kernel ∧ (∀ i, (schedulerBlockCurrent (semWaitStart m₃.kernel m₃.kernel.kbdSemId).1).queues (.ready i) = ⟨0, 0, 0⟩) ∧
                (schedulerBlockCurrent (semWaitStart m₃.kernel m₃.kernel.kbdSemId).1).queues .finished = ⟨0, 0, 0⟩ ∧
                (schedulerBlockCurrent (semWaitStart m₃.kernel m₃.kernel.kbdSemId).1).state (schedulerBlockCurrent (semWaitStart m₃.kernel m₃.kernel.kbdSemId).1).current = .blocked) ∧
              (m₄.reading m₄.kernel.current = none ∧ ctrlC m₄.kernel 0x1E = false) ∧
              m₅.reading m₅.kernel.current = none ∧ m₅.kernel.keyboard.size = 1 ∧
              m₅.kernel.waitingOnSem 48 = 0 ∧ m₅.kernel.state 48 = .ready)) = some true := by
    decide +kernel
  obtain ⟨k₀, hboot, h₁⟩ := Option.bind_eq_some_iff.mp hcalc
  obtain ⟨m₁, htick, h₂⟩ := Option.bind_eq_some_iff.mp h₁
  obtain ⟨m₂, hread, h₃⟩ := Option.bind_eq_some_iff.mp h₂
  obtain ⟨m₃, hchar, h₄⟩ := Option.bind_eq_some_iff.mp h₃
  obtain ⟨m₄, hwait, h₅⟩ := Option.bind_eq_some_iff.mp h₄
  obtain ⟨m₅, hkey, h₆⟩ := Option.map_eq_some_iff.mp h₅
  obtain ⟨hrun₀, ⟨hcall₁, hsettled₁⟩, ⟨hcall₂, hloop⟩, ⟨hcall₃, hready₃, hfinished₃, hblocked₃⟩,
    ⟨hsettled₄, hletter⟩, hsettled₅, hsize, hon, hready⟩ := of_decide_eq_true h₆
  have hm : BootMemory 16 8192 48 12288 1 := ⟨by decide, by decide, by decide, by decide, by decide, by decide⟩
  obtain ⟨Q, hQ⟩ := bootSystem_agree hm (by omega) (by omega) hboot
  have hfirst : ∀ r, m₂.reading m₂.kernel.current = some r → r.waits ≠ true := by
    intro r hr
    rw [hr] at hloop
    simpa using hloop
  have hsettled₀ : Terminal.Settled ⟨k₀, fun _ => none⟩ := rfl
  have run₁ := TerminalRun.snoc (a := .call (.tick frame)) .nil ⟨hsettled₀, trivial⟩ htick
  have run₂ := TerminalRun.snoc (a := .read 0 1 1) run₁ ⟨hsettled₁, hcall₁⟩ hread
  have run₃ := TerminalRun.snoc (a := .turn frame) run₂ hcall₂ hchar
  have run₄ := TerminalRun.snoc (a := .turn frame) run₃ hcall₃ hwait
  have run := TerminalRun.snoc (a := .key 0x1E) run₄ hsettled₄ hkey
  refine ⟨k₀, _, m₅, hboot, run, hsize, hon, hready, keys_noticed hm (by omega) (by omega) hboot run ?_ hsettled₅⟩
  simp only [List.nil_append, List.cons_append, List.forall_mem_cons, List.not_mem_nil, false_imp_iff,
    implies_true, and_true]
  refine ⟨⟨trivial, hQ.placed.switchSafe fun hfin => absurd (hrun₀.symm.trans hfin) (by decide), fun c hopens => ?_⟩,
    trivial, fun r hr hwaits => absurd hwaits (hfirst r hr), fun _ _ _ _ _ => ?_, fun hctrl => ?_⟩
  · cases hopens with
    | _ => trivial
  · exact .of_empty hready₃ hfinished₃ (by rw [hblocked₃]; decide)
  · rw [hletter] at hctrl
    cases hctrl

end Runs

section LostKey

variable {m m' : Terminal} {r : TerminalRead}

/-- A list of moves: the processes that were current before them, and the state reached. -/
def terminalPlay : List TerminalMove → Terminal → Option (List ℕ × Terminal)
  | [], m => some ([], m)
  | a :: as, m => do
      let next ← terminalMove m a
      let (ps, last) ← terminalPlay as next
      some (m.kernel.current :: ps, last)

theorem Terminal.goOn_reading {x : Option TerminalRead} (hp : p ≠ m.kernel.current) :
    (m.goOn x).reading p = m.reading p :=
  Function.update_of_ne hp _ _

theorem Terminal.reading_of_after (hr : (m.after k').reading p = some r) : m.reading p = some r := by
  rw [Terminal.after] at hr
  dsimp only at hr
  split at hr
  · exact hr
  · cases hr

theorem Terminal.syscallRead_reading {fd count : ℤ} {buffer : ℕ} (h : m.syscallRead fd buffer count = some m')
    (hp : p ≠ m.kernel.current) : m'.reading p = m.reading p := by
  have hsame : some m = some m' → m'.reading p = m.reading p := by
    intro heq
    cases heq
    rfl
  rw [Terminal.syscallRead] at h
  split at h
  · exact hsame h
  split at h
  · exact hsame h
  split at h
  · split at h
    · exact hsame h
    split at h
    · obtain ⟨k₁, -, rfl⟩ := Option.map_eq_some_iff.mp h
      rfl
    · cases h
      exact Terminal.goOn_reading hp
  · exact hsame h

theorem Terminal.turn_reading {semWait : Kernel → ℕ → Option Kernel} (h : m.turn semWait = some m')
    (hp : p ≠ m.kernel.current) : m'.reading p = m.reading p := by
  rw [Terminal.turn] at h
  split at h
  · cases h
    rfl
  split at h
  · rw [Terminal.waitForChar] at h
    split at h
    · split at h
      · obtain ⟨k₁, -, rfl⟩ := Option.map_eq_some_iff.mp h
        rfl
      · cases h
        rfl
    · cases h
      exact Terminal.goOn_reading hp
  · cases h
    rw [Terminal.readChar]
    split
    · exact Terminal.goOn_reading hp
    rw [keyboardReadGetchar]
    dsimp only
    split
    · exact Function.update_of_ne hp _ _
    split
    · exact Function.update_of_ne hp _ _
    split
    · exact Function.update_of_ne hp _ _
    · exact Function.update_of_ne hp _ _

/-- Only processes that were current before a move are in a read. -/
theorem terminalPlay_reading {as : List TerminalMove} {ps : List ℕ} (h : terminalPlay as m = some (ps, m'))
    (hr : m'.reading p = some r) (hp : p ∉ ps) : m.reading p = some r := by
  induction as generalizing m ps with
  | nil =>
      cases h
      exact hr
  | cons a as ih =>
      rw [terminalPlay, Option.bind_eq_bind] at h
      obtain ⟨next, hmove, h₁⟩ := Option.bind_eq_some_iff.mp h
      obtain ⟨⟨qs, last⟩, hplay, h₂⟩ := Option.bind_eq_some_iff.mp h₁
      cases h₂
      obtain ⟨hpc, hps⟩ := not_or.mp (List.mem_cons.not.mp hp)
      have hnext := ih hplay hps
      cases a with
      | call c =>
          obtain ⟨o, -, rfl⟩ := Option.map_eq_some_iff.mp hmove
          exact Terminal.reading_of_after hnext
      | key scancode =>
          obtain ⟨x, -, rfl⟩ := Option.map_eq_some_iff.mp hmove
          exact Terminal.reading_of_after hnext
      | read fd buffer count => exact (Terminal.syscallRead_reading hmove hpc).symm.trans hnext
      | turn frame => exact (Terminal.turn_reading hmove hpc).symm.trans hnext

/-- The foreground child of the shell waits for a key and is killed by Ctrl+C. The shell waits
for a key behind it, and the child is collected. The signal for the next key goes to the child:
the key is in the buffer, the shell stays blocked and nobody will look. -/
theorem key_lost_to_killed_reader :
    ∃ k₀ ps m, bootSystem 16 8192 48 12288 1 = some k₀ ∧
      terminalPlay [.call (.tick ⟨0, fun _ => 0⟩),
        .call (.createProcess ⟨1, 0, 2, true, 0, 0, 64, 32768⟩), .call (.yield ⟨0, fun _ => 0⟩),
        .read 0 1 1, .turn ⟨0, fun _ => 0⟩, .turn ⟨0, fun _ => 0⟩, .key 0x1D, .key 0x2E, .key 0x9D,
        .read 0 1 1, .turn ⟨0, fun _ => 0⟩, .turn ⟨0, fun _ => 0⟩, .key 0x1E] ⟨k₀, fun _ => none⟩ =
          some (ps, m) ∧ m.Settled ∧ ¬KeysNoticed m := by
  have hcalc : ((bootSystem 16 8192 48 12288 1).bind fun k₀ =>
      (terminalPlay [.call (.tick ⟨0, fun _ => 0⟩),
        .call (.createProcess ⟨1, 0, 2, true, 0, 0, 64, 32768⟩), .call (.yield ⟨0, fun _ => 0⟩),
        .read 0 1 1, .turn ⟨0, fun _ => 0⟩, .turn ⟨0, fun _ => 0⟩, .key 0x1D, .key 0x2E, .key 0x9D,
        .read 0 1 1, .turn ⟨0, fun _ => 0⟩, .turn ⟨0, fun _ => 0⟩, .key 0x1E] ⟨k₀, fun _ => none⟩).map fun x =>
          decide ((x.2.reading x.2.kernel.current = none ∧ x.2.kernel.keyboard.size ≠ 0) ∧
            (x.2.kernel.allocated 48 = true ∧ x.2.kernel.state 48 = .blocked ∧
              x.2.kernel.waitingOnSem 48 = x.2.kernel.kbdSemId) ∧
            ∀ p ∈ x.1, x.2.kernel.allocated p = true → x.2.kernel.state p = .ready → x.2.reading p = none)) =
      some true := by
    decide +kernel
  obtain ⟨k₀, hboot, h₁⟩ := Option.bind_eq_some_iff.mp hcalc
  obtain ⟨⟨ps, m⟩, hplay, h₂⟩ := Option.map_eq_some_iff.mp h₁
  obtain ⟨⟨hsettled, hkey⟩, hblocked, hnobody⟩ := of_decide_eq_true h₂
  refine ⟨k₀, ps, m, hboot, hplay, hsettled, fun hnoticed => ?_⟩
  cases hnoticed hkey with
  | inl hfree => exact hfree 48 hblocked
  | inr hlook =>
      obtain ⟨p, hal, hready, ⟨r, hr, -⟩, -⟩ := hlook
      by_cases hp : p ∈ ps
      · rw [hnobody p hp hal hready] at hr
        cases hr
      · have hnone := terminalPlay_reading hplay hr hp
        cases hnone

end LostKey
end SoKernel
