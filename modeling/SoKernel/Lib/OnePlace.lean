import Mathlib.Data.List.Nodup
import SoKernel.Lib.CountingSemaphore

/-!
# A channel with one place

Writers and readers pass values through a channel under two semaphores, one for the free place and
one for the value in it. A process takes a token from one of them, does its part and posts one of
them. There is one token, in a semaphore or with a process, so that the channel holds at most one
value and the values come out once each, in the order in which they went in.
-/

open Function (update)

/-- What a process has done with the token. -/
inductive OnePlace.Stage (α : Type*) where
  | away
  /-- It has waited for the place. -/
  | slot
  | sent
  /-- It has waited for the value. -/
  | item
  | got (a : α)
  | shown

structure OnePlace (P α : Type*) where
  slots : CountingSemaphore P
  items : CountingSemaphore P
  channel : List α
  stage : P → OnePlace.Stage α
  written : List α
  shown : List α

namespace OnePlace

variable {P α : Type*} {s s' : OnePlace P α} {p q w : P}

section Model

def Waits (s : OnePlace P α) (p : P) : Prop := p ∈ s.slots.queue ∨ p ∈ s.items.queue

/-- The process has the token. -/
def Holds (s : OnePlace P α) (p : P) : Prop := s.stage p ≠ .away ∧ ¬s.Waits p

/-- The process works for the writers. -/
def Stage.Writes : Stage α → Prop
  | .slot | .sent => True
  | _ => False

/-- The process works for the readers. -/
def Stage.Reads : Stage α → Prop
  | .item | .got _ | .shown => True
  | _ => False

/-- One step of a process that is in no queue. -/
inductive Move [DecidableEq P] (s : OnePlace P α) (p : P) : OnePlace P α → Prop
  | idle : Move s p s
  | takeSlot (here : s.stage p = .away) (pos : 0 < s.slots.value) :
      Move s p { s with slots := s.slots.take, stage := update s.stage p .slot }
  | awaitSlot (here : s.stage p = .away) (zero : ¬0 < s.slots.value) :
      Move s p { s with slots := s.slots.enqueue p, stage := update s.stage p .slot }
  | takeItem (here : s.stage p = .away) (pos : 0 < s.items.value) :
      Move s p { s with items := s.items.take, stage := update s.stage p .item }
  | awaitItem (here : s.stage p = .away) (zero : ¬0 < s.items.value) :
      Move s p { s with items := s.items.enqueue p, stage := update s.stage p .item }
  | write (a : α) (here : s.stage p = .slot) :
      Move s p { s with
        channel := s.channel ++ [a]
        written := s.written ++ [a]
        stage := update s.stage p .sent }
  | read (a : α) (l : List α) (here : s.stage p = .item) (first : s.channel = a :: l) :
      Move s p { s with channel := l, stage := update s.stage p (.got a) }
  | show (a : α) (here : s.stage p = .got a) :
      Move s p { s with shown := s.shown ++ [a], stage := update s.stage p .shown }
  /-- A writer that has not written, or a reader that is done. -/
  | postSlot (here : s.stage p = .slot ∨ s.stage p = .shown) :
      Move s p { s with slots := s.slots.signal, stage := update s.stage p .away }
  /-- A reader that has not read, or a writer that is done. -/
  | postItem (here : s.stage p = .item ∨ s.stage p = .sent) :
      Move s p { s with items := s.items.signal, stage := update s.stage p .away }

end Model

section Invariant

/-- The place is free, and everything written was shown. -/
def Free (s : OnePlace P α) : Prop := s.channel = [] ∧ s.written = s.shown

/-- The last value written is in the channel, and all others were shown. -/
def Full (s : OnePlace P α) : Prop := ∃ a, s.channel = [a] ∧ s.written = s.shown ++ [a]

/-- The channel and the values shown, for the stage of the process with the token. -/
def Agrees (s : OnePlace P α) : Stage α → Prop
  | .away => False
  | .slot | .shown => s.Free
  | .item | .sent => s.Full
  | .got a => s.channel = [] ∧ s.written = s.shown ++ [a]

/-- Where the token is. -/
inductive Phase (s : OnePlace P α) : Prop
  | free (slots : s.slots.value = 1) (items : s.items.value = 0) (nobody : ∀ p, ¬s.Holds p)
      (free : s.Free)
  | full (slots : s.slots.value = 0) (items : s.items.value = 1) (nobody : ∀ p, ¬s.Holds p)
      (full : s.Full)
  | held (p : P) (slots : s.slots.value = 0) (items : s.items.value = 0)
      (only : ∀ q, s.Holds q ↔ q = p) (agrees : s.Agrees (s.stage p))

structure Inv (s : OnePlace P α) : Prop where
  slotsNodup : s.slots.queue.Nodup
  itemsNodup : s.items.queue.Nodup
  slotsQueue : ∀ p ∈ s.slots.queue, s.stage p = .slot
  itemsQueue : ∀ p ∈ s.items.queue, s.stage p = .item
  phase : s.Phase

/-- The state before the first step. -/
theorem Inv.start (hslots : s.slots = ⟨1, []⟩) (hitems : s.items = ⟨0, []⟩) (haway : ∀ p, s.stage p = .away)
    (hfree : s.Free) : s.Inv := by
  refine ⟨?_, ?_, ?_, ?_, .free ?_ ?_ (fun p hp => hp.1 (haway p)) hfree⟩
  all_goals simp [hslots, hitems]

end Invariant

section Steps

/-- Whoever has the token is the process that the phase names. -/
theorem Phase.holder (h : s.Phase) (hp : s.Holds p) :
    s.slots.value = 0 ∧ s.items.value = 0 ∧ (∀ q, s.Holds q ↔ q = p) ∧ s.Agrees (s.stage p) := by
  cases h with
  | free _ _ nobody => exact absurd hp (nobody p)
  | full _ _ nobody => exact absurd hp (nobody p)
  | held q slots items only agrees =>
      obtain rfl := (only p).mp hp
      exact ⟨slots, items, only, agrees⟩

theorem mem_tail_iff {l : List P} (h : (w :: l).Nodup) : q ∈ l ↔ q ∈ w :: l ∧ q ≠ w := by
  rw [List.mem_cons]
  constructor
  · intro hq
    refine ⟨.inr hq, ?_⟩
    rintro rfl
    exact (List.nodup_cons.mp h).1 hq
  · rintro ⟨hq, hne⟩
    exact hq.resolve_left hne

variable [DecidableEq P]

/-- The holder gives the token back to a semaphore with the processes `Q`: nobody holds it then, or
the first one in the queue does. -/
theorem holds_signal {Q R : List P} {stage : P → Stage α} {x : Stage α}
    (only : ∀ q, (stage q ≠ .away ∧ ¬(q ∈ Q ∨ q ∈ R)) ↔ q = p) (hQ : ∀ q ∈ Q, stage q = x)
    (hx : x ≠ .away) (hR : ∀ q ∈ R, stage q ≠ x) (hnodup : Q.Nodup) :
    (Q = [] ∧ ∀ q, ¬(update stage p .away q ≠ .away ∧ ¬(q ∈ Q ∨ q ∈ R))) ∨
      ∃ w l, Q = w :: l ∧ w ≠ p ∧
        ∀ q, (update stage p .away q ≠ .away ∧ ¬(q ∈ l ∨ q ∈ R)) ↔ q = w := by
  have hother : ∀ q, update stage p .away q ≠ .away → q ≠ p ∧ stage q ≠ .away := by
    intro q haway
    have hqp : q ≠ p := by
      rintro rfl
      exact haway (Function.update_self ..)
    rw [Function.update_of_ne hqp] at haway
    exact ⟨hqp, haway⟩
  cases Q with
  | nil =>
      refine .inl ⟨rfl, ?_⟩
      rintro q ⟨haway, hwaits⟩
      obtain ⟨hqp, hstage⟩ := hother q haway
      exact hqp ((only q).mp ⟨hstage, hwaits⟩)
  | cons w l =>
      have hw : w ∈ w :: l := List.mem_cons_self
      have hwp : w ≠ p := by
        rintro rfl
        exact ((only w).mpr rfl).2 (.inl hw)
      refine .inr ⟨w, l, rfl, hwp, fun q => ⟨?_, ?_⟩⟩
      · rintro ⟨haway, hwaits⟩
        obtain ⟨hqp, hstage⟩ := hother q haway
        refine Decidable.of_not_not fun hne => hqp ((only q).mp ⟨hstage, ?_⟩)
        rintro (hm | hm)
        · exact hwaits (.inl ((mem_tail_iff hnodup).mpr ⟨hm, hne⟩))
        · exact hwaits (.inr hm)
      · rintro rfl
        rw [Function.update_of_ne hwp, hQ q hw]
        refine ⟨hx, ?_⟩
        rintro (hm | hm)
        · exact ((mem_tail_iff hnodup).mp hm).2 rfl
        · exact hR q hm (hQ q hw)

/-- The stages of the processes in a queue do not change. -/
theorem stage_of_queued {L : List P} {x y : Stage α} (h : ∀ q ∈ L, s.stage q = x) (hp : p ∉ L) :
    ∀ q ∈ L, update s.stage p y q = x := by
  intro q hq
  rw [Function.update_of_ne]
  · exact h q hq
  · rintro rfl
    exact hp hq

theorem Inv.postSlot (h : s.Inv) (hp : s.Holds p) (hfree : s.Free) :
    Inv { s with slots := s.slots.signal, stage := update s.stage p .away } := by
  obtain ⟨hslots, hitems, honly, -⟩ := h.phase.holder hp
  have hslotsQueue := stage_of_queued (y := .away) h.slotsQueue fun hm => hp.2 (.inl hm)
  have hitemsQueue := stage_of_queued (y := .away) h.itemsQueue fun hm => hp.2 (.inr hm)
  have hR : ∀ q ∈ s.items.queue, s.stage q ≠ .slot := by
    intro q hm
    rw [h.itemsQueue q hm]
    simp
  rcases holds_signal honly h.slotsQueue (by simp) hR h.slotsNodup with ⟨hq, hnobody⟩ | ⟨w, l, hq, hwp, hnext⟩
  · rw [CountingSemaphore.signal_of_nil hq]
    rw [hq] at hnobody
    exact ⟨List.nodup_nil, h.itemsNodup, fun _ hm => absurd hm List.not_mem_nil, hitemsQueue,
      .free (by rw [hslots]; rfl) hitems hnobody hfree⟩
  · rw [CountingSemaphore.signal_of_cons hq]
    have hnodup := h.slotsNodup
    rw [hq] at hnodup hslotsQueue
    refine ⟨(List.nodup_cons.mp hnodup).2, h.itemsNodup,
      fun q hm => hslotsQueue q (List.mem_cons_of_mem _ hm), hitemsQueue,
      .held w hslots hitems hnext ?_⟩
    have hstage : update s.stage p .away w = .slot := hslotsQueue w List.mem_cons_self
    dsimp only
    rw [hstage]
    exact hfree

theorem Inv.postItem (h : s.Inv) (hp : s.Holds p) (hfull : s.Full) :
    Inv { s with items := s.items.signal, stage := update s.stage p .away } := by
  obtain ⟨hslots, hitems, honly, -⟩ := h.phase.holder hp
  have hslotsQueue := stage_of_queued (y := .away) h.slotsQueue fun hm => hp.2 (.inl hm)
  have hitemsQueue := stage_of_queued (y := .away) h.itemsQueue fun hm => hp.2 (.inr hm)
  have hR : ∀ q ∈ s.slots.queue, s.stage q ≠ .item := by
    intro q hm
    rw [h.slotsQueue q hm]
    simp
  simp only [Holds, Waits, or_comm (a := _ ∈ s.slots.queue)] at honly
  rcases holds_signal honly h.itemsQueue (by simp) hR h.itemsNodup with ⟨hq, hnobody⟩ | ⟨w, l, hq, hwp, hnext⟩
  · rw [CountingSemaphore.signal_of_nil hq]
    rw [hq] at hnobody
    refine ⟨h.slotsNodup, List.nodup_nil, hslotsQueue, fun _ hm => absurd hm List.not_mem_nil,
      .full hslots (by rw [hitems]; rfl) (fun q hq' => hnobody q ⟨hq'.1, fun hm => hq'.2 hm.symm⟩) hfull⟩
  · rw [CountingSemaphore.signal_of_cons hq]
    have hnodup := h.itemsNodup
    rw [hq] at hnodup hitemsQueue
    refine ⟨h.slotsNodup, (List.nodup_cons.mp hnodup).2, hslotsQueue,
      fun q hm => hitemsQueue q (List.mem_cons_of_mem _ hm),
      .held w hslots hitems (fun q => ?_) ?_⟩
    · rw [← hnext q, Holds, Waits, or_comm]
    · have hstage : update s.stage p .away w = .item := hitemsQueue w List.mem_cons_self
      dsimp only
      rw [hstage]
      exact hfull

/-- The holder goes on, and the semaphores stay. -/
theorem Inv.work {x : Stage α} (h : s.Inv) (hp : s.Holds p) (hslots : s'.slots = s.slots)
    (hitems : s'.items = s.items) (hstage : s'.stage = update s.stage p x) (hx : x ≠ .away)
    (hagrees : s'.Agrees x) : s'.Inv := by
  obtain ⟨hzero, hzero', honly, -⟩ := h.phase.holder hp
  have hself : s'.stage p = x := by rw [hstage, Function.update_self]
  refine ⟨hslots ▸ h.slotsNodup, hitems ▸ h.itemsNodup, ?_, ?_,
    .held p (hslots ▸ hzero) (hitems ▸ hzero') (fun q => ?_) (hself ▸ hagrees)⟩
  · rw [hslots, hstage]
    exact stage_of_queued h.slotsQueue fun hm => hp.2 (.inl hm)
  · rw [hitems, hstage]
    exact stage_of_queued h.itemsQueue fun hm => hp.2 (.inr hm)
  · rw [← honly q, Holds, Holds, Waits, Waits, hslots, hitems, hstage]
    by_cases hq : q = p
    · rw [hq, Function.update_self]
      exact and_congr_left fun _ => iff_of_true hx hp.1
    · rw [Function.update_of_ne hq]

/-- A process takes the token from a semaphore. -/
theorem Inv.take {x : Stage α} (h : s.Inv) (hout : ¬s.Waits p) (hnobody : ∀ q, ¬s.Holds q)
    (hslots : s'.slots.queue = s.slots.queue) (hitems : s'.items.queue = s.items.queue)
    (hzero : s'.slots.value = 0) (hzero' : s'.items.value = 0) (hstage : s'.stage = update s.stage p x)
    (hx : x ≠ .away) (hagrees : s'.Agrees x) : s'.Inv := by
  have hself : s'.stage p = x := by rw [hstage, Function.update_self]
  refine ⟨hslots ▸ h.slotsNodup, hitems ▸ h.itemsNodup, ?_, ?_,
    .held p hzero hzero' (fun q => ?_) (hself ▸ hagrees)⟩
  · rw [hslots, hstage]
    exact stage_of_queued h.slotsQueue fun hm => hout (.inl hm)
  · rw [hitems, hstage]
    exact stage_of_queued h.itemsQueue fun hm => hout (.inr hm)
  · have hwaits : s'.Waits q ↔ s.Waits q := by rw [Waits, Waits, hslots, hitems]
    rw [Holds, hwaits]
    constructor
    · rintro ⟨haway, hq⟩
      refine Decidable.of_not_not fun hne => hnobody q ⟨?_, hq⟩
      rw [hstage, Function.update_of_ne hne] at haway
      exact haway
    · rintro rfl
      exact ⟨hself ▸ hx, hout⟩

/-- A process begins to wait. -/
theorem Inv.await {x : Stage α} (h : s.Inv) (haway : s.stage p = .away) (hwaits : s'.Waits p)
    (hmore : ∀ q, q ≠ p → (s'.Waits q ↔ s.Waits q)) (hslots : s'.slots.value = s.slots.value)
    (hitems : s'.items.value = s.items.value) (hchannel : s'.channel = s.channel)
    (hwritten : s'.written = s.written) (hshown : s'.shown = s.shown)
    (hstage : s'.stage = update s.stage p x) : s'.Phase := by
  have hsame : ∀ q, s'.Holds q ↔ s.Holds q := by
    intro q
    by_cases hq : q = p
    · rw [hq]
      exact iff_of_false (fun hp => hp.2 hwaits) fun hp => hp.1 haway
    · rw [Holds, Holds, hmore q hq, hstage, Function.update_of_ne hq]
  have hfree : s'.Free ↔ s.Free := by rw [Free, Free, hchannel, hwritten, hshown]
  have hfull : s'.Full ↔ s.Full := by rw [Full, Full, hchannel, hwritten, hshown]
  cases h.phase with
  | free slots items nobody free =>
      exact .free (hslots ▸ slots) (hitems ▸ items) (fun q hq => nobody q ((hsame q).mp hq)) (hfree.mpr free)
  | full slots items nobody full =>
      exact .full (hslots ▸ slots) (hitems ▸ items) (fun q hq => nobody q ((hsame q).mp hq)) (hfull.mpr full)
  | held w slots items only agrees =>
      have hwp : w ≠ p := by
        rintro rfl
        exact ((only w).mpr rfl).1 haway
      refine .held w (hslots ▸ slots) (hitems ▸ items) (fun q => (hsame q).trans (only q)) ?_
      rw [hstage, Function.update_of_ne hwp]
      cases hw : s.stage w with
      | away => exact absurd hw ((only w).mpr rfl).1
      | slot | shown =>
          rw [hw] at agrees
          exact hfree.mpr agrees
      | item | sent =>
          rw [hw] at agrees
          exact hfull.mpr agrees
      | got a =>
          rw [hw] at agrees
          rw [Agrees, hchannel, hwritten, hshown]
          exact agrees

theorem Inv.awaitSlot (h : s.Inv) (hout : ¬s.Waits p) (haway : s.stage p = .away) :
    Inv { s with slots := s.slots.enqueue p, stage := update s.stage p .slot } := by
  have hmem : ∀ q, q ∈ (s.slots.enqueue p).queue ↔ q ∈ s.slots.queue ∨ q = p := by
    simp [CountingSemaphore.enqueue]
  refine ⟨?_, h.itemsNodup, fun q hq => ?_, stage_of_queued h.itemsQueue fun hm => hout (.inr hm),
    h.await haway (.inl ?_) (fun q hq => ?_) rfl rfl rfl rfl rfl rfl⟩
  · exact h.slotsNodup.append (List.nodup_singleton p) (by simpa using fun hm => hout (.inl hm))
  · rcases (hmem q).mp hq with hm | rfl
    · exact stage_of_queued h.slotsQueue (fun hm' => hout (.inl hm')) q hm
    · exact Function.update_self ..
  · exact (hmem p).mpr (.inr rfl)
  · simp [Waits, hmem, hq]

theorem Inv.awaitItem (h : s.Inv) (hout : ¬s.Waits p) (haway : s.stage p = .away) :
    Inv { s with items := s.items.enqueue p, stage := update s.stage p .item } := by
  have hmem : ∀ q, q ∈ (s.items.enqueue p).queue ↔ q ∈ s.items.queue ∨ q = p := by
    simp [CountingSemaphore.enqueue]
  refine ⟨h.slotsNodup, ?_, stage_of_queued h.slotsQueue fun hm => hout (.inl hm), fun q hq => ?_,
    h.await haway (.inr ?_) (fun q hq => ?_) rfl rfl rfl rfl rfl rfl⟩
  · exact h.itemsNodup.append (List.nodup_singleton p) (by simpa using fun hm => hout (.inr hm))
  · rcases (hmem q).mp hq with hm | rfl
    · exact stage_of_queued h.itemsQueue (fun hm' => hout (.inr hm')) q hm
    · exact Function.update_self ..
  · exact (hmem p).mpr (.inr rfl)
  · simp [Waits, hmem, hq]

/-- The steps of processes that are in no queue keep the invariant. -/
theorem Move.inv (move : Move s p s') (h : s.Inv) (hout : ¬s.Waits p) : s'.Inv := by
  have hholds : ∀ {x : Stage α}, s.stage p = x → x ≠ .away → s.Holds p ∧ s.Agrees x := by
    intro x hx hne
    have hp : s.Holds p := ⟨by rw [hx]; exact hne, hout⟩
    obtain ⟨-, -, -, hagrees⟩ := h.phase.holder hp
    exact ⟨hp, hx ▸ hagrees⟩
  cases move with
  | idle => exact h
  | takeSlot here pos =>
      cases h.phase with
      | free slots items nobody free =>
          refine h.take (x := .slot) hout nobody rfl rfl ?_ items rfl (by simp) free
          rw [CountingSemaphore.take, slots]
          rfl
      | full slots => exact absurd pos (by rw [slots]; exact lt_irrefl _)
      | held _ slots => exact absurd pos (by rw [slots]; exact lt_irrefl _)
  | awaitSlot here => exact h.awaitSlot hout here
  | takeItem here pos =>
      cases h.phase with
      | free _ items => exact absurd pos (by rw [items]; exact lt_irrefl _)
      | full slots items nobody full =>
          refine h.take (x := .item) hout nobody rfl rfl slots ?_ rfl (by simp) full
          rw [CountingSemaphore.take, items]
          rfl
      | held _ _ items => exact absurd pos (by rw [items]; exact lt_irrefl _)
  | awaitItem here => exact h.awaitItem hout here
  | write a here =>
      obtain ⟨hp, hchannel, hwritten⟩ := hholds here (by simp)
      refine h.work (x := .sent) hp rfl rfl rfl (by simp) ⟨a, ?_, ?_⟩
      · simp [hchannel]
      · simp [hwritten]
  | read a l here first =>
      obtain ⟨hp, b, hchannel, hwritten⟩ := hholds here (by simp)
      rw [hchannel] at first
      obtain ⟨rfl, rfl⟩ := List.cons.inj first
      exact h.work (x := .got b) hp rfl rfl rfl (by simp) ⟨rfl, hwritten⟩
  | «show» a here =>
      obtain ⟨hp, hchannel, hwritten⟩ := hholds here (by simp)
      exact h.work (x := .shown) hp rfl rfl rfl (by simp) ⟨hchannel, hwritten⟩
  | postSlot here =>
      rcases here with here | here
      · obtain ⟨hp, hfree⟩ := hholds here (by simp)
        exact h.postSlot hp hfree
      · obtain ⟨hp, hfree⟩ := hholds here (by simp)
        exact h.postSlot hp hfree
  | postItem here =>
      rcases here with here | here
      · obtain ⟨hp, hfull⟩ := hholds here (by simp)
        exact h.postItem hp hfull
      · obtain ⟨hp, hfull⟩ := hholds here (by simp)
        exact h.postItem hp hfull

end Steps

section Results

theorem Free.bounds (h : s.Free) : s.channel.length ≤ 1 ∧ s.shown <+: s.written ∧
    s.written.length ≤ s.shown.length + 1 := by
  obtain ⟨hchannel, hwritten⟩ := h
  rw [hchannel, hwritten]
  exact ⟨Nat.zero_le 1, List.prefix_rfl, Nat.le_succ _⟩

theorem bounds_of_append {a : α} (hchannel : s.channel.length ≤ 1) (hwritten : s.written = s.shown ++ [a]) :
    s.channel.length ≤ 1 ∧ s.shown <+: s.written ∧ s.written.length ≤ s.shown.length + 1 := by
  rw [hwritten]
  exact ⟨hchannel, List.prefix_append _ _, by simp⟩

theorem Full.bounds (h : s.Full) : s.channel.length ≤ 1 ∧ s.shown <+: s.written ∧
    s.written.length ≤ s.shown.length + 1 := by
  obtain ⟨a, hchannel, hwritten⟩ := h
  exact bounds_of_append (by simp [hchannel]) hwritten

/-- The channel holds one value at most, and the values shown are the first ones written, all but
one at most. -/
theorem Inv.bounds (h : s.Inv) : s.channel.length ≤ 1 ∧ s.shown <+: s.written ∧
    s.written.length ≤ s.shown.length + 1 := by
  cases h.phase with
  | free _ _ _ free => exact free.bounds
  | full _ _ _ full => exact full.bounds
  | held p _ _ _ agrees =>
      cases hp : s.stage p with
      | away =>
          rw [hp] at agrees
          exact agrees.elim
      | slot | shown =>
          rw [hp] at agrees
          exact Free.bounds agrees
      | item | sent =>
          rw [hp] at agrees
          exact Full.bounds agrees
      | got a =>
          rw [hp] at agrees
          exact bounds_of_append (by simp [agrees.1]) agrees.2

/-- A process that has waited for a value finds it. -/
theorem Inv.found (h : s.Inv) (hp : s.Holds p) (hitem : s.stage p = .item) : ∃ a, s.channel = [a] := by
  obtain ⟨-, -, -, hagrees⟩ := h.phase.holder hp
  rw [hitem] at hagrees
  obtain ⟨a, hchannel, -⟩ := hagrees
  exact ⟨a, hchannel⟩

/-- The tokens of the semaphores and of the processes are one token. -/
theorem Inv.tokens (h : s.Inv) : ∃ W R : List P, W.Nodup ∧ R.Nodup ∧
    (∀ p, p ∈ W ↔ s.Holds p ∧ (s.stage p).Writes) ∧ (∀ p, p ∈ R ↔ s.Holds p ∧ (s.stage p).Reads) ∧
      s.slots.value + s.items.value + W.length + R.length = 1 := by
  have hnone : (∀ p, ¬s.Holds p) → s.slots.value + s.items.value = 1 → ∃ W R : List P, W.Nodup ∧
      R.Nodup ∧ (∀ p, p ∈ W ↔ s.Holds p ∧ (s.stage p).Writes) ∧
        (∀ p, p ∈ R ↔ s.Holds p ∧ (s.stage p).Reads) ∧
          s.slots.value + s.items.value + W.length + R.length = 1 := by
    intro hnobody hvalue
    refine ⟨[], [], List.nodup_nil, List.nodup_nil, fun p => ?_, fun p => ?_, by simpa using hvalue⟩
    · exact iff_of_false List.not_mem_nil fun hp => hnobody p hp.1
    · exact iff_of_false List.not_mem_nil fun hp => hnobody p hp.1
  cases h.phase with
  | free slots items nobody => exact hnone nobody (by rw [slots, items]; rfl)
  | full slots items nobody => exact hnone nobody (by rw [slots, items]; rfl)
  | held p slots items only agrees =>
      have hmine : ∀ (F : Stage α → Prop), F (s.stage p) → ∀ q, q ∈ [p] ↔ s.Holds q ∧ F (s.stage q) := by
        intro F hF q
        rw [only q, List.mem_singleton]
        exact ⟨fun hq => ⟨hq, hq ▸ hF⟩, And.left⟩
      have hnot : ∀ (F : Stage α → Prop), ¬F (s.stage p) → ∀ q, q ∈ [] ↔ s.Holds q ∧ F (s.stage q) := by
        intro F hF q
        rw [only q]
        exact iff_of_false List.not_mem_nil fun hq => hF (hq.1 ▸ hq.2)
      cases hp : s.stage p with
      | away => exact absurd hp ((only p).mpr rfl).1
      | slot | sent =>
          refine ⟨[p], [], List.nodup_singleton p, List.nodup_nil, hmine _ ?_, hnot _ ?_, ?_⟩
          · rw [hp]
            exact trivial
          · rw [hp]
            exact not_false
          · rw [slots, items]
            rfl
      | item | got a | shown =>
          refine ⟨[], [p], List.nodup_nil, List.nodup_singleton p, hnot _ ?_, hmine _ ?_, ?_⟩
          · rw [hp]
            exact not_false
          · rw [hp]
            exact trivial
          · rw [slots, items]
            rfl

end Results

end OnePlace
