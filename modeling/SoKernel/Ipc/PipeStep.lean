import SoKernel.Ipc.TransferRun

/-!
# The steps of the machine as seen from one pipe

A pipe in use with its two semaphores. A step that leaves the pipe in use is a call on this
pipe, or changes neither the pipe nor its semaphores.
-/

namespace SoKernel

open Function (update)

variable {k k' : Kernel} {V V' : Sems} {c : IpcCall} {r : Reply} {i j id a : ℕ}
  {items spaces s : CountingSemaphore ℕ}

section View

/-- The pipe in an entry of the table, with the semaphores of its readers and writers. -/
structure PipeView where
  pipe : Pipe
  items : CountingSemaphore ℕ
  spaces : CountingSemaphore ℕ

structure Shows (k : Kernel) (V : Sems) (i : ℕ) (v : PipeView) : Prop where
  pipe : k.pipes i = v.pipe
  used : v.pipe.used = true
  items : V v.pipe.semItems = some v.items
  spaces : V v.pipe.semSpaces = some v.spaces

theorem Sound.shows (h : Sound k V) (hi : i < maxPipes) (hu : (k.pipes i).used = true) :
    ∃ v, Shows k V i v := by
  obtain ⟨items, hitems⟩ := h.held (a := (k.pipes i).semItems) ⟨i, hi, hu, Or.inl rfl⟩
  obtain ⟨spaces, hspaces⟩ := h.held (a := (k.pipes i).semSpaces) ⟨i, hi, hu, Or.inr (Or.inl rfl)⟩
  exact ⟨⟨k.pipes i, items, spaces⟩, rfl, hu, hitems, hspaces⟩

theorem Shows.unique {v w : PipeView} (h : Shows k V i v) (h' : Shows k V i w) : v = w := by
  have hp : v.pipe = w.pipe := h.pipe.symm.trans h'.pipe
  have hi : v.items = w.items := Option.some_inj.mp (h.items.symm.trans (hp ▸ h'.items))
  have hs : v.spaces = w.spaces := Option.some_inj.mp (h.spaces.symm.trans (hp ▸ h'.spaces))
  cases v
  cases w
  simp only at hp hi hs
  rw [hp, hi, hs]

/-- What a call with its reply does to the pipe in an entry of the table. -/
inductive PipeStep (i : ℕ) (v : PipeView) (p : ℕ) : IpcCall → Reply → PipeView → Prop
  | other {c : IpcCall} {r : Reply} (noRead : ∀ n, c ≠ .readTurn i n)
      (noWrite : ∀ b, c ≠ .writeTurn i b) : PipeStep i v p c r v
  | opened {id : ℕ} {isWriter : Bool} {r : Reply} :
      PipeStep i v p (.pipeOpen id isWriter) r { v with pipe := v.pipe.opened isWriter }
  | closed {isWriter : Bool} {r : Reply}
      (live : ¬((v.pipe.closed isWriter).readers = 0 ∧ (v.pipe.closed isWriter).writers = 0)) :
      PipeStep i v p (.pipeClose v.pipe.id isWriter) r
        { v with
          pipe := v.pipe.closed isWriter
          items := CountingSemaphore.signal^[wakeCount v.pipe isWriter] v.items }
  | readEnded {n : ℕ} (empty : v.pipe.count = 0) (why : v.pipe.writers = 0 ∨ 0 < n) :
      PipeStep i v p (.readTurn i n) .ended v
  | readMoved {n : ℕ} (pos : 0 < v.pipe.count) :
      PipeStep i v p (.readTurn i n) (.moved (v.pipe.buffer v.pipe.readPos))
        { v with
          pipe := v.pipe.shift
          spaces := v.spaces.signal }
  | readAgain {n : ℕ} (empty : v.pipe.count = 0) (token : 0 < v.items.value) :
      PipeStep i v p (.readTurn i n) .again { v with items := v.items.take }
  | readBlocked (empty : v.pipe.count = 0) (writers : v.pipe.writers ≠ 0)
      (token : ¬0 < v.items.value) :
      PipeStep i v p (.readTurn i 0) .blocked { v with items := v.items.enqueue p }
  | writeEnded {b : UInt8} (why : v.pipe.readers = 0) : PipeStep i v p (.writeTurn i b) .ended v
  | writeMoved {b : UInt8} (readers : v.pipe.readers ≠ 0) (room : v.pipe.count < pipeBufferSize) :
      PipeStep i v p (.writeTurn i b) (.moved b)
        { v with
          pipe := v.pipe.push b
          items := v.items.signal }
  | writeAgain {b : UInt8} (full : ¬v.pipe.count < pipeBufferSize) (readers : v.pipe.readers ≠ 0)
      (token : 0 < v.spaces.value) :
      PipeStep i v p (.writeTurn i b) .again { v with spaces := v.spaces.take }
  | writeBlocked {b : UInt8} (full : ¬v.pipe.count < pipeBufferSize) (readers : v.pipe.readers ≠ 0)
      (token : ¬0 < v.spaces.value) :
      PipeStep i v p (.writeTurn i b) .blocked { v with spaces := v.spaces.enqueue p }

theorem PipeStep.id_eq {v v' : PipeView} {p : ℕ} (step : PipeStep i v p c r v') :
    v'.pipe.id = v.pipe.id := by
  cases step with
  | opened => exact (v.pipe.opened_same _).1
  | closed => exact (v.pipe.closed_same _).1
  | _ => rfl

end View

section Projection

/-- Two pipes in use share no semaphore. -/
theorem Sound.apart (h : Sound k V) (hi : i < maxPipes) (hu : (k.pipes i).used = true)
    (hj : j < maxPipes) (huj : (k.pipes j).used = true) (hne : j ≠ i) (ha : a ∈ (k.pipes j).semIds) :
    a ≠ (k.pipes i).semItems ∧ a ≠ (k.pipes i).semSpaces := by
  have hnot : ∀ b ∈ (k.pipes i).semIds, a ≠ b :=
    fun b hb he => hne (h.tables.disjoint j hj i hi huj hu a ha (he ▸ hb))
  exact ⟨hnot _ (by simp [Pipe.semIds]), hnot _ (by simp [Pipe.semIds])⟩

/-- The semaphores of one pipe are different. -/
theorem Sound.items_ne_spaces (h : Sound k V) (hi : i < maxPipes) (hu : (k.pipes i).used = true) :
    (k.pipes i).semItems ≠ (k.pipes i).semSpaces := by
  have hnodup := h.tables.nodup i hi hu
  simp only [Pipe.semIds, List.nodup_cons, List.mem_cons, not_or] at hnodup
  exact hnodup.1.1

/-- The pipe is not touched when the entry and its semaphores stay. -/
theorem Shows.keep {v : PipeView} (h : Shows k V i v) (hpipe : k'.pipes i = k.pipes i)
    (hitems : V' v.pipe.semItems = V v.pipe.semItems)
    (hspaces : V' v.pipe.semSpaces = V v.pipe.semSpaces) : Shows k' V' i v :=
  ⟨hpipe.trans h.pipe, h.used, hitems.trans h.items, hspaces.trans h.spaces⟩

/-- A change of a semaphore that does not belong to the pipe. -/
theorem Shows.far {v : PipeView} (h : Shows k V i v) (hpipe : k'.pipes i = k.pipes i)
    (hother : ∀ b, b ≠ a → V' b = V b) (ha : a ≠ v.pipe.semItems ∧ a ≠ v.pipe.semSpaces) :
    Shows k' V' i v :=
  h.keep hpipe (hother _ ha.1.symm) (hother _ ha.2.symm)

theorem Shows.user {v : PipeView} (h : Shows k V i v) (hi : i < maxPipes) (hown : ¬PipeSem k a)
    (hpipe : k'.pipes i = k.pipes i) (hother : ∀ b, b ≠ a → V' b = V b) : Shows k' V' i v := by
  have hused : (k.pipes i).used = true := h.pipe ▸ h.used
  refine h.far hpipe hother ⟨fun he => hown ?_, fun he => hown ?_⟩
  · exact ⟨i, hi, hused, Or.inl (by rw [h.pipe, he])⟩
  · exact ⟨i, hi, hused, Or.inr (Or.inl (by rw [h.pipe, he]))⟩

theorem Shows.grown {v : PipeView} (h : Shows k V i v) (hpipe : k'.pipes i = k.pipes i)
    (hg : Grown V V') : Shows k' V' i v :=
  ⟨hpipe.trans h.pipe, h.used, hg.old _ _ h.items, hg.old _ _ h.spaces⟩

theorem Aside.pipe_self {q : Pipe} (h : Aside (setPipe k i q) k') : k'.pipes i = q := by
  rw [h.pipes]
  exact Function.update_self _ _ _

theorem Aside.pipe_other {q : Pipe} (h : Aside (setPipe k j q) k') (hne : i ≠ j) :
    k'.pipes i = k.pipes i := by
  rw [h.pipes]
  exact Function.update_of_ne hne _ _

theorem Pipe.closed_sems (p : Pipe) (isWriter : Bool) : (p.closed isWriter).semItems = p.semItems ∧
    (p.closed isWriter).semSpaces = p.semSpaces := by
  have hsems := (p.closed_same isWriter).2.2.1
  simp only [Pipe.semIds, List.cons.injEq] at hsems
  exact ⟨hsems.1, hsems.2.1⟩

theorem Pipe.opened_sems (p : Pipe) (isWriter : Bool) : (p.opened isWriter).semItems = p.semItems ∧
    (p.opened isWriter).semSpaces = p.semSpaces := by
  cases isWriter <;> exact ⟨rfl, rfl⟩

/-- The call closes the last end of the pipe. -/
def ClosesLast (v : PipeView) (c : IpcCall) : Prop :=
  ∃ isWriter, c = .pipeClose v.pipe.id isWriter ∧ (v.pipe.closed isWriter).readers = 0 ∧
    (v.pipe.closed isWriter).writers = 0

section Calls

variable {v : PipeView} (h : Sound k V) (hi : i < maxPipes) (hv : Shows k V i v)
include h hi hv

theorem CloseEffect.pipeStep {isWriter : Bool} (effect : CloseEffect k V id isWriter k' V') :
    ((k'.pipes i).used = false ∧ ClosesLast v (.pipeClose id isWriter)) ∨
      ∃ v', Shows k' V' i v' ∧ PipeStep i v k.current (.pipeClose id isWriter) r v' := by
  have hused : (k.pipes i).used = true := hv.pipe ▸ hv.used
  have hother : Shows k' V' i v → ∃ v', Shows k' V' i v' ∧
      PipeStep i v k.current (.pipeClose id isWriter) r v' :=
    fun hs => ⟨v, hs, .other (fun _ he => by cases he) fun _ he => by cases he⟩
  cases effect with
  | missing _ kernel sems =>
      subst kernel sems
      exact Or.inr (hother hv)
  | closed j s found entry live aside _ sems =>
      obtain ⟨hj, huj, hid⟩ := pipeGetById_mem found
      right
      by_cases hji : j = i
      · subst hji
        rw [hv.pipe] at entry live aside sems hid
        obtain ⟨hitems, hspaces⟩ := v.pipe.closed_sems isWriter
        have hs : s = v.items := Option.some_inj.mp (entry.symm.trans hv.items)
        have hne : v.pipe.semSpaces ≠ v.pipe.semItems := by
          rw [← hv.pipe]
          exact (h.items_ne_spaces hj huj).symm
        refine ⟨{ v with
          pipe := v.pipe.closed isWriter
          items := CountingSemaphore.signal^[wakeCount v.pipe isWriter] v.items },
          ⟨aside.pipe_self, ?_, ?_, ?_⟩, ?_⟩
        · exact (v.pipe.closed_same isWriter).2.1.trans hv.used
        · rw [hitems, sems, Function.update_self, hs]
        · rw [hspaces, sems, Function.update_of_ne hne]
          exact hv.spaces
        · rw [← hid]
          exact .closed live
      · refine hother (hv.far (a := (k.pipes j).semItems) (aside.pipe_other (Ne.symm hji)) ?_ ?_)
        · intro b hb
          rw [sems, Function.update_of_ne hb]
        · rw [← hv.pipe]
          exact h.apart hi hused hj huj hji (by simp [Pipe.semIds])
  | destroyed j found dead aside _ sems =>
      obtain ⟨hj, huj, hid⟩ := pipeGetById_mem found
      by_cases hji : j = i
      · subst hji
        rw [hv.pipe] at dead hid
        refine Or.inl ⟨?_, isWriter, by rw [hid], dead.1, dead.2⟩
        rw [aside.pipe_self]
        rfl
      · right
        have hfar : ∀ b, b = v.pipe.semItems ∨ b = v.pipe.semSpaces → V' b = V b := by
          intro b hb
          refine sems.1 b fun hm => ?_
          have hap := h.apart hi hused hj huj hji hm
          rw [hv.pipe] at hap
          rcases hb with he | he
          · exact hap.1 he
          · exact hap.2 he
        exact hother (hv.keep (aside.pipe_other (Ne.symm hji)) (hfar _ (Or.inl rfl)) (hfar _ (Or.inr rfl)))

theorem ReadEffect.pipeStep {n : ℕ} (hj : j < maxPipes) (effect : ReadEffect k V j n k' V' r) :
    ∃ v', Shows k' V' i v' ∧ PipeStep i v k.current (.readTurn j n) r v' := by
  have hused : (k.pipes i).used = true := hv.pipe ▸ hv.used
  by_cases hji : j = i
  · subst hji
    have hne : v.pipe.semItems ≠ v.pipe.semSpaces := hv.pipe ▸ h.items_ne_spaces hi hused
    cases effect with
    | gone unused =>
        rw [hused] at unused
        cases unused
    | ended _ empty why aside _ sems =>
        rw [hv.pipe] at empty why
        exact ⟨v, hv.keep (by rw [aside.pipes]) (by rw [sems]) (by rw [sems]), .readEnded empty why⟩
    | moved _ pos aside _ sems =>
        rw [hv.pipe] at pos aside sems ⊢
        rw [Sems.signal_of_some hv.spaces] at sems
        refine ⟨{ v with
          pipe := v.pipe.shift
          spaces := v.spaces.signal }, ⟨aside.pipe_self, hv.used, ?_, ?_⟩, .readMoved pos⟩
        · rw [sems]
          exact (Function.update_of_ne hne _ _).trans hv.items
        · rw [sems]
          exact Function.update_self _ _ _
    | again _ empty s entry pos aside _ sems =>
        rw [hv.pipe] at empty entry sems
        obtain rfl : s = v.items := Option.some_inj.mp (entry.symm.trans hv.items)
        refine ⟨{ v with items := v.items.take }, ⟨by rw [aside.pipes]; exact hv.pipe, hv.used, ?_, ?_⟩,
          .readAgain empty pos⟩
        · rw [sems, Function.update_self]
        · rw [sems]
          exact (Function.update_of_ne hne.symm _ _).trans hv.spaces
  · have hother : Shows k' V' i v → ∃ v', Shows k' V' i v' ∧
        PipeStep i v k.current (.readTurn j n) r v' :=
      fun hs => ⟨v, hs, .other (fun _ he => hji (IpcCall.readTurn.inj he).1) fun _ he => by cases he⟩
    cases effect with
    | gone _ kernel sems =>
        subst kernel sems
        exact hother hv
    | ended _ _ _ aside _ sems =>
        exact hother (hv.keep (by rw [aside.pipes]) (by rw [sems]) (by rw [sems]))
    | moved huj _ aside _ sems =>
        refine hother (hv.far (a := (k.pipes j).semSpaces) (aside.pipe_other (Ne.symm hji)) ?_ ?_)
        · intro b hb
          rw [sems, Sems.signal, Function.update_of_ne hb]
        · rw [← hv.pipe]
          exact h.apart hi hused hj huj hji (by simp [Pipe.semIds])
    | again huj _ s _ _ aside _ sems =>
        refine hother (hv.far (a := (k.pipes j).semItems) (by rw [aside.pipes]) ?_ ?_)
        · intro b hb
          rw [sems, Function.update_of_ne hb]
        · rw [← hv.pipe]
          exact h.apart hi hused hj huj hji (by simp [Pipe.semIds])

theorem WriteEffect.pipeStep {b : UInt8} (hj : j < maxPipes) (effect : WriteEffect k V j b k' V' r) :
    ∃ v', Shows k' V' i v' ∧ PipeStep i v k.current (.writeTurn j b) r v' := by
  have hused : (k.pipes i).used = true := hv.pipe ▸ hv.used
  by_cases hji : j = i
  · subst hji
    have hne : v.pipe.semItems ≠ v.pipe.semSpaces := hv.pipe ▸ h.items_ne_spaces hi hused
    cases effect with
    | gone unused =>
        rw [hused] at unused
        cases unused
    | ended _ why aside _ sems =>
        rw [hv.pipe] at why
        exact ⟨v, hv.keep (by rw [aside.pipes]) (by rw [sems]) (by rw [sems]), .writeEnded why⟩
    | moved _ readers room aside _ sems =>
        rw [hv.pipe] at readers room aside sems
        rw [Sems.signal_of_some hv.items] at sems
        refine ⟨{ v with
          pipe := v.pipe.push b
          items := v.items.signal }, ⟨aside.pipe_self, hv.used, ?_, ?_⟩, .writeMoved readers room⟩
        · rw [sems]
          exact Function.update_self _ _ _
        · rw [sems]
          exact (Function.update_of_ne hne.symm _ _).trans hv.spaces
    | again _ readers full s entry pos aside _ sems =>
        rw [hv.pipe] at readers full entry sems
        obtain rfl : s = v.spaces := Option.some_inj.mp (entry.symm.trans hv.spaces)
        refine ⟨{ v with spaces := v.spaces.take },
          ⟨by rw [aside.pipes]; exact hv.pipe, hv.used, ?_, ?_⟩, .writeAgain full readers pos⟩
        · rw [sems]
          exact (Function.update_of_ne hne _ _).trans hv.items
        · rw [sems, Function.update_self]
  · have hother : Shows k' V' i v → ∃ v', Shows k' V' i v' ∧
        PipeStep i v k.current (.writeTurn j b) r v' :=
      fun hs => ⟨v, hs, .other (fun _ he => by cases he) fun _ he => hji (IpcCall.writeTurn.inj he).1⟩
    cases effect with
    | gone _ kernel sems =>
        subst kernel sems
        exact hother hv
    | ended _ _ aside _ sems =>
        exact hother (hv.keep (by rw [aside.pipes]) (by rw [sems]) (by rw [sems]))
    | moved huj _ _ aside _ sems =>
        refine hother (hv.far (a := (k.pipes j).semItems) (aside.pipe_other (Ne.symm hji)) ?_ ?_)
        · intro b hb
          rw [sems, Sems.signal, Function.update_of_ne hb]
        · rw [← hv.pipe]
          exact h.apart hi hused hj huj hji (by simp [Pipe.semIds])
    | again huj _ _ s _ _ aside _ sems =>
        refine hother (hv.far (a := (k.pipes j).semSpaces) (by rw [aside.pipes]) ?_ ?_)
        · intro b hb
          rw [sems, Function.update_of_ne hb]
        · rw [← hv.pipe]
          exact h.apart hi hused hj huj hji (by simp [Pipe.semIds])

theorem IpcEffect.pipeStep (effect : IpcEffect k V k' V' c r) :
    ((k'.pipes i).used = false ∧ ClosesLast v c) ∨
      ∃ v', Shows k' V' i v' ∧ PipeStep i v k.current c r v' := by
  have hused : (k.pipes i).used = true := hv.pipe ▸ hv.used
  have hfree : ∀ j, (k.pipes j).used = false → i ≠ j := by
    rintro j hj rfl
    rw [hused] at hj
    cases hj
  cases effect with
  | semAlloc grown pipes =>
      exact Or.inr ⟨v, hv.grown (by rw [pipes]) grown, .other (fun _ he => by cases he) fun _ he => by cases he⟩
  | semOpen aside _ sems =>
      exact Or.inr ⟨v, hv.keep (by rw [aside.pipes]) (by rw [sems]) (by rw [sems]),
        .other (fun _ he => by cases he) fun _ he => by cases he⟩
  | semClose own aside _ sems =>
      refine Or.inr ⟨v, hv.user hi own (by rw [aside.pipes]) fun b hb => ?_,
        .other (fun _ he => by cases he) fun _ he => by cases he⟩
      exact sems.1 b fun hm => hb (List.mem_singleton.mp hm)
  | semMissing _ kernel sems =>
      subst kernel sems
      exact Or.inr ⟨v, hv, .other (fun _ he => by cases he) fun _ he => by cases he⟩
  | semTaken own _ _ aside _ sems =>
      refine Or.inr ⟨v, hv.user hi own (by rw [aside.pipes]) fun b hb => ?_,
        .other (fun _ he => by cases he) fun _ he => by cases he⟩
      rw [sems, Function.update_of_ne hb]
  | semSignal own aside _ sems =>
      refine Or.inr ⟨v, hv.user hi own (by rw [aside.pipes]) fun b hb => ?_,
        .other (fun _ he => by cases he) fun _ he => by cases he⟩
      rw [sems, Sems.signal, Function.update_of_ne hb]
  | semSetFailed kernel sems =>
      subst kernel sems
      exact Or.inr ⟨v, hv, .other (fun _ he => by cases he) fun _ he => by cases he⟩
  | semSet own _ aside _ sems =>
      refine Or.inr ⟨v, hv.user hi own (by rw [aside.pipes]) fun b hb => ?_,
        .other (fun _ he => by cases he) fun _ he => by cases he⟩
      rw [sems, Function.update_of_ne hb]
  | pipeCreate grown effect =>
      refine Or.inr ⟨v, hv.grown ?_ grown, .other (fun _ he => by cases he) fun _ he => by cases he⟩
      cases effect with
      | full pipes => rw [pipes]
      | failed j q free _ _ pipes => rw [pipes, Function.update_of_ne (hfree j free)]
      | created j q fresh pipes => rw [pipes, Function.update_of_ne (hfree j fresh.free)]
  | pipeMissing _ kernel sems =>
      subst kernel sems
      exact Or.inr ⟨v, hv, .other (fun _ he => by cases he) fun _ he => by cases he⟩
  | @pipeOpen _ j isWriter _ found aside _ sems =>
      subst sems
      by_cases hji : j = i
      · subst hji
        rw [hv.pipe] at aside
        obtain ⟨hitems, hspaces⟩ := v.pipe.opened_sems isWriter
        refine Or.inr ⟨{ v with pipe := v.pipe.opened isWriter }, ⟨aside.pipe_self, ?_, ?_, ?_⟩, .opened⟩
        · exact (v.pipe.opened_same isWriter).2.1.trans hv.used
        · rw [hitems]
          exact hv.items
        · rw [hspaces]
          exact hv.spaces
      · exact Or.inr ⟨v, hv.keep (aside.pipe_other (Ne.symm hji)) rfl rfl,
          .other (fun _ he => by cases he) fun _ he => by cases he⟩
  | pipeClose effect => exact effect.pipeStep h hi hv
  | readTurn bound effect => exact Or.inr (effect.pipeStep h hi hv bound)
  | writeTurn bound effect => exact Or.inr (effect.pipeStep h hi hv bound)

/-- A call that blocks. -/
theorem WaitsFor.pipeStep (waits : WaitsFor k c a) (entry : V a = some s) (empty : ¬0 < s.value)
    (pipes : k'.pipes = k.pipes) :
    ∃ v', Shows k' (update V a (some (s.enqueue k.current))) i v' ∧
      PipeStep i v k.current c .blocked v' := by
  have hused : (k.pipes i).used = true := hv.pipe ▸ hv.used
  have hne : v.pipe.semItems ≠ v.pipe.semSpaces := hv.pipe ▸ h.items_ne_spaces hi hused
  have hpipe : k'.pipes i = k.pipes i := by rw [pipes]
  have hupdate : ∀ b, b ≠ a → update V a (some (s.enqueue k.current)) b = V b :=
    fun b hb => Function.update_of_ne hb _ _
  cases c with
  | semWait id =>
      obtain ⟨rfl, hown⟩ := waits
      exact ⟨v, hv.user hi hown hpipe hupdate, .other (fun _ he => by cases he) fun _ he => by cases he⟩
  | readTurn j n =>
      obtain ⟨rfl, hj, huj, hcount, hwriters, rfl⟩ := waits
      by_cases hji : j = i
      · subst hji
        rw [hv.pipe] at entry hcount hwriters
        obtain rfl : s = v.items := Option.some_inj.mp (entry.symm.trans hv.items)
        refine ⟨{ v with items := v.items.enqueue k.current }, ⟨hpipe.trans hv.pipe, hv.used, ?_, ?_⟩,
          .readBlocked hcount hwriters empty⟩
        · rw [hv.pipe, Function.update_self]
        · rw [hv.pipe]
          exact (Function.update_of_ne hne.symm _ _).trans hv.spaces
      · refine ⟨v, hv.far hpipe hupdate ?_,
          .other (fun _ he => hji (IpcCall.readTurn.inj he).1) fun _ he => by cases he⟩
        rw [← hv.pipe]
        exact h.apart hi hused hj huj hji (by simp [Pipe.semIds])
  | writeTurn j b =>
      obtain ⟨rfl, hj, huj, hfull, hreaders⟩ := waits
      by_cases hji : j = i
      · subst hji
        rw [hv.pipe] at entry hfull hreaders
        obtain rfl : s = v.spaces := Option.some_inj.mp (entry.symm.trans hv.spaces)
        refine ⟨{ v with spaces := v.spaces.enqueue k.current },
          ⟨hpipe.trans hv.pipe, hv.used, ?_, ?_⟩, .writeBlocked hfull hreaders empty⟩
        · rw [hv.pipe]
          exact (Function.update_of_ne hne _ _).trans hv.items
        · rw [hv.pipe, Function.update_self]
      · refine ⟨v, hv.far hpipe hupdate ?_,
          .other (fun _ he => by cases he) fun _ he => hji (IpcCall.writeTurn.inj he).1⟩
        rw [← hv.pipe]
        exact h.apart hi hused hj huj hji (by simp [Pipe.semIds])
  | _ => exact absurd waits (by simp [WaitsFor])

end Calls

variable {σ : Type} {prog : Program σ} {m m' : Ipc σ} {e : Option IpcEvent}

/-- What a step of the machine does to a pipe. -/
inductive PipeMove (i : ℕ) (m : Ipc σ) (v : PipeView) (m' : Ipc σ) (v' : PipeView) :
    Option IpcEvent → Prop
  | call {c : IpcCall} {r : Reply} (step : PipeStep i v m.kernel.current c r v') :
      PipeMove i m v m' v' (some ⟨m.kernel.current, c, r⟩)
  | switch (same : v' = v) : PipeMove i m v m' v' none

/-- A step destroys the pipe or is one of the steps above. -/
theorem StepEffect.pipeMove (h : Sound m.kernel V) (hi : i < maxPipes) {v : PipeView}
    (hv : Shows m.kernel V i v) (effect : StepEffect prog m V m' V' e) :
    ((m'.kernel.pipes i).used = false ∧ ∃ c r, e = some ⟨m.kernel.current, c, r⟩ ∧ ClosesLast v c) ∨
      ∃ v', Shows m'.kernel V' i v' ∧ PipeMove i m v m' v' e := by
  cases effect with
  | call next caller acts promise steers effect thread =>
      rcases effect.pipeStep h hi hv with ⟨hunused, hlast⟩ | ⟨v', hv', hstep⟩
      · exact Or.inl ⟨hunused, _, _, rfl, hlast⟩
      · exact Or.inr ⟨v', hv', .call hstep⟩
  | block next a s caller acts waits entry empty sems pipes =>
      obtain ⟨v', hv', hstep⟩ := waits.pipeStep h hi hv entry empty pipes
      exact Or.inr ⟨v', sems ▸ hv', .call hstep⟩
  | switch handed sems thread =>
      exact Or.inr ⟨v, hv.keep (by rw [handed.pipes]) (by rw [sems]) (by rw [sems]), .switch rfl⟩

/-- Only `pipe_create` puts a pipe into an entry that was not in use. -/
theorem IpcEffect.appears (effect : IpcEffect k V k' V' c r) (hfree : (k.pipes i).used = false)
    (hused : (k'.pipes i).used = true) : ∃ q, Fresh k V V' i q ∧ k'.pipes = update k.pipes i q := by
  have hsame : k'.pipes i = k.pipes i → False := by
    intro he
    rw [he, hfree] at hused
    cases hused
  have hchanged : ∀ j q, Aside (setPipe k j q) k' → (k.pipes j).used = true → False := by
    intro j q haside huj
    refine hsame (haside.pipe_other ?_)
    rintro rfl
    rw [hfree] at huj
    cases huj
  cases effect with
  | semAlloc _ pipes => exact (hsame (by rw [pipes])).elim
  | semOpen aside => exact (hsame (by rw [aside.pipes])).elim
  | semClose _ aside => exact (hsame (by rw [aside.pipes])).elim
  | semMissing _ kernel => exact (hsame (by rw [kernel])).elim
  | semTaken _ _ _ aside => exact (hsame (by rw [aside.pipes])).elim
  | semSignal _ aside => exact (hsame (by rw [aside.pipes])).elim
  | semSetFailed kernel => exact (hsame (by rw [kernel])).elim
  | semSet _ _ aside => exact (hsame (by rw [aside.pipes])).elim
  | pipeCreate _ effect =>
      cases effect with
      | full pipes => exact (hsame (by rw [pipes])).elim
      | failed j q _ unused _ pipes =>
          rw [pipes] at hused
          by_cases hij : i = j
          · rw [hij, Function.update_self, unused] at hused
            cases hused
          · rw [Function.update_of_ne hij, hfree] at hused
            cases hused
      | created j q fresh pipes =>
          have hij : i = j := by
            by_contra hne
            rw [pipes, Function.update_of_ne hne, hfree] at hused
            cases hused
          subst hij
          exact ⟨q, fresh, pipes⟩
  | pipeMissing _ kernel => exact (hsame (by rw [kernel])).elim
  | pipeOpen found aside => exact (hchanged _ _ aside (pipeGetById_mem found).2.1).elim
  | pipeClose effect =>
      cases effect with
      | missing _ kernel => exact (hsame (by rw [kernel])).elim
      | closed j s found _ _ aside => exact (hchanged _ _ aside (pipeGetById_mem found).2.1).elim
      | destroyed j found _ aside => exact (hchanged _ _ aside (pipeGetById_mem found).2.1).elim
  | readTurn _ effect =>
      cases effect with
      | gone _ kernel => exact (hsame (by rw [kernel])).elim
      | ended _ _ _ aside => exact (hsame (by rw [aside.pipes])).elim
      | moved huj _ aside => exact (hchanged _ _ aside huj).elim
      | again _ _ _ _ _ aside => exact (hsame (by rw [aside.pipes])).elim
  | writeTurn _ effect =>
      cases effect with
      | gone _ kernel => exact (hsame (by rw [kernel])).elim
      | ended _ _ aside => exact (hsame (by rw [aside.pipes])).elim
      | moved huj _ _ aside => exact (hchanged _ _ aside huj).elim
      | again _ _ _ _ _ _ aside => exact (hsame (by rw [aside.pipes])).elim

theorem StepEffect.appears (effect : StepEffect prog m V m' V' e)
    (hfree : (m.kernel.pipes i).used = false) (hused : (m'.kernel.pipes i).used = true) :
    ∃ q, Fresh m.kernel V V' i q ∧ m'.kernel.pipes = update m.kernel.pipes i q := by
  cases effect with
  | call _ _ _ _ _ effect => exact effect.appears hfree hused
  | block _ _ _ _ _ _ _ _ _ pipes =>
      rw [pipes, hfree] at hused
      cases hused
  | switch handed =>
      rw [handed.pipes, hfree] at hused
      cases hused

theorem StepEffect.nextPipeId_le (effect : StepEffect prog m V m' V' e) :
    m.kernel.nextPipeId ≤ m'.kernel.nextPipeId := by
  cases effect with
  | call _ _ _ _ steers => exact steers.nextPipeId
  | block _ _ _ _ _ _ _ _ _ _ nextPipeId => exact nextPipeId.ge
  | switch handed => exact handed.nextPipeId.ge

/-- A pipe that is in use after a step was in use before, or is new. -/
theorem StepEffect.pipe_before (h : Sound m.kernel V) (hi : i < maxPipes)
    (effect : StepEffect prog m V m' V' e) (hused : (m'.kernel.pipes i).used = true) :
    (∃ v v', Shows m.kernel V i v ∧ Shows m'.kernel V' i v' ∧ PipeMove i m v m' v' e) ∨
      ∃ q, Fresh m.kernel V V' i q ∧ m'.kernel.pipes = update m.kernel.pipes i q := by
  rcases Bool.eq_false_or_eq_true (m.kernel.pipes i).used with hu | hu
  · obtain ⟨v, hv⟩ := h.shows hi hu
    rcases effect.pipeMove h hi hv with ⟨hunused, -⟩ | ⟨v', hv', hmove⟩
    · rw [hunused] at hused
      cases hused
    · exact Or.inl ⟨v, v', hv, hv', hmove⟩
  · exact Or.inr (effect.appears hu hused)

/-- A pipe after a step, with the identifier of an older pipe, was there before. -/
theorem StepEffect.view_before (h : Sound m.kernel V) (hi : i < maxPipes)
    (effect : StepEffect prog m V m' V' e) {v' : PipeView} (hv' : Shows m'.kernel V' i v')
    (hold : v'.pipe.id < m.kernel.nextPipeId) :
    ∃ v, Shows m.kernel V i v ∧ v.pipe.id = v'.pipe.id ∧ PipeMove i m v m' v' e := by
  rcases effect.pipe_before h hi (hv'.pipe ▸ hv'.used) with ⟨v, w, hv, hw, hmove⟩ | ⟨q, hfresh, hpipes⟩
  · obtain rfl := hw.unique hv'
    refine ⟨v, hv, ?_, hmove⟩
    cases hmove with
    | call step => exact step.id_eq.symm
    | switch same => rw [same]
  · rw [← hv'.pipe, hpipes, Function.update_self, hfresh.id_eq] at hold
    exact absurd hold (lt_irrefl _)

/-- `pipe_create` returns the identifier of a new empty pipe. -/
theorem StepEffect.created {p : ℕ} (h : Sound m.kernel V) (hi : i < maxPipes)
    (effect : StepEffect prog m V m' V' (some ⟨p, .pipeCreate, .value id⟩)) (hid : id ≠ 0) :
    id < m'.kernel.nextPipeId ∧ ∀ v, Shows m'.kernel V' i v → v.pipe.id = id →
      Fresh m.kernel V V' i v.pipe ∧ v.items.queue = [] ∧ v.spaces.queue = [] := by
  cases effect with
  | call _ _ _ _ _ effect =>
      cases effect with
      | pipeCreate _ effect =>
          cases effect with
          | full => exact absurd rfl hid
          | failed => exact absurd rfl hid
          | created j q fresh pipes next =>
              refine ⟨by rw [next]; exact Nat.lt_succ_self _, fun v hv hidv => ?_⟩
              have hij : i = j := by
                by_contra hne
                have hpipe := hv.pipe
                rw [pipes, Function.update_of_ne hne] at hpipe
                have hlt := (h.tables.bound i hi (hpipe ▸ hv.used)).2
                rw [hpipe, hidv] at hlt
                exact absurd hlt (lt_irrefl _)
              have hq : v.pipe = q := by
                rw [← hv.pipe, pipes, hij, Function.update_self]
              obtain ⟨hitems, hspaces⟩ := fresh.empty
              rw [← hq] at fresh hitems hspaces
              rw [hv.items, Option.some_inj] at hitems
              rw [hv.spaces, Option.some_inj] at hspaces
              rw [hitems, hspaces, hij]
              exact ⟨fresh, rfl, rfl⟩

end Projection

end SoKernel
