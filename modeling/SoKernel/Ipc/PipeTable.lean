import SoKernel.Ipc.Shapes

/-!
# The tables of semaphores and pipes

The identifiers of semaphores and of pipes are unique, and every pipe in use owns three
semaphores. Between two calls the mutex of a pipe is free, so that opening and closing an
end never waits for it. The operations on pipes keep these tables.
-/

namespace SoKernel

open Function (update)

variable {k k' : Kernel} {sems sems' sems'' : ℕ → Semaphore} {X Y : List ℕ} {id i j : ℕ}

section Semaphores

/-- Used entries have different identifiers, all of them handed out before. -/
structure SemTable (sems : ℕ → Semaphore) (next : ℕ) : Prop where
  bound : ∀ i < maxSemaphores, (sems i).used = true → 0 < (sems i).id ∧ (sems i).id < next
  unique : ∀ i < maxSemaphores, ∀ j < maxSemaphores, (sems i).used = true → (sems j).used = true →
    (sems i).id = (sems j).id → i = j

/-- A semaphore that nobody holds and nobody waits for. -/
def Semaphore.Free (s : Semaphore) : Prop := s.used = true ∧ 0 < s.value ∧ s.waitHead = 0

/-- Apart from the semaphores with an identifier in `X`, which may be closed, semaphores
stay open and those without waiters lose no token. -/
def SemsKept (X : List ℕ) (sems sems' : ℕ → Semaphore) : Prop :=
  ∀ i, (sems' i).id = (sems i).id ∧ ((sems' i).used = true → (sems i).used = true) ∧
    ((sems i).id ∉ X → (sems' i).used = (sems i).used ∧
      ((sems i).waitHead = 0 → (sems' i).waitHead = 0 ∧ (sems i).value ≤ (sems' i).value))

theorem SemsKept.refl (X : List ℕ) (sems : ℕ → Semaphore) : SemsKept X sems sems :=
  fun _ => ⟨rfl, id, fun _ => ⟨rfl, fun h => ⟨h, le_rfl⟩⟩⟩

theorem SemsKept.trans (h : SemsKept X sems sems') (h' : SemsKept X sems' sems'') :
    SemsKept X sems sems'' := by
  intro i
  obtain ⟨hid, hused, hkept⟩ := h i
  obtain ⟨hid', hused', hkept'⟩ := h' i
  rw [hid] at hid' hkept'
  refine ⟨hid', fun hu => hused (hused' hu), fun hX => ?_⟩
  obtain ⟨hu, hfree⟩ := hkept hX
  obtain ⟨hu', hfree'⟩ := hkept' hX
  refine ⟨hu'.trans hu, fun hw => ?_⟩
  obtain ⟨hw₁, hv₁⟩ := hfree hw
  obtain ⟨hw₂, hv₂⟩ := hfree' hw₁
  exact ⟨hw₂, hv₁.trans hv₂⟩

theorem SemsKept.mono (h : SemsKept X sems sems') (hXY : ∀ a ∈ X, a ∈ Y) : SemsKept Y sems sems' :=
  fun i => ⟨(h i).1, (h i).2.1, fun hY => (h i).2.2 fun hX => hY (hXY _ hX)⟩

/-- Changing one entry. -/
theorem SemsKept.update (s : Semaphore) (hid : s.id = (sems i).id)
    (hused : s.used = true → (sems i).used = true)
    (hkept : (sems i).id ∉ X → s.used = (sems i).used ∧
      ((sems i).waitHead = 0 → s.waitHead = 0 ∧ (sems i).value ≤ s.value)) :
    SemsKept X sems (update sems i s) := by
  intro j
  by_cases hj : j = i
  · subst hj
    rw [Function.update_self]
    exact ⟨hid, hused, hkept⟩
  · rw [Function.update_of_ne hj]
    exact SemsKept.refl X sems j

theorem SemTable.kept {next : ℕ} (T : SemTable sems next) (h : SemsKept X sems sems') :
    SemTable sems' next := by
  refine ⟨fun i hi hu => ?_, fun i hi j hj hui huj heq => ?_⟩
  · rw [(h i).1]
    exact T.bound i hi ((h i).2.1 hu)
  · rw [(h i).1, (h j).1] at heq
    exact T.unique i hi j hj ((h i).2.1 hui) ((h j).2.1 huj) heq

/-- The search for an identifier finds the entry that has it. -/
theorem SemTable.find (T : SemTable k.semaphores k.nextSemId) :
    semGetById k id = some i ↔
      i < maxSemaphores ∧ (k.semaphores i).used = true ∧ (k.semaphores i).id = id := by
  unfold semGetById findSlotById
  constructor
  · intro h
    split at h
    · cases h
    · have hm := List.mem_range.mp (List.mem_of_find?_eq_some h)
      have hp := List.find?_some h
      simp only [Bool.and_eq_true, decide_eq_true_eq] at hp
      exact ⟨hm, hp.1, hp.2⟩
  · rintro ⟨hi, hu, hid⟩
    have hpos := (T.bound i hi hu).1
    rw [if_neg (by omega)]
    cases hfind : (List.range maxSemaphores).find? fun i =>
        (k.semaphores i).used && decide ((k.semaphores i).id = id) with
    | none =>
        have hnot := List.find?_eq_none.mp hfind i (List.mem_range.mpr hi)
        simp [hu, hid] at hnot
    | some j =>
        have hm := List.mem_range.mp (List.mem_of_find?_eq_some hfind)
        have hp := List.find?_some hfind
        simp only [Bool.and_eq_true, decide_eq_true_eq] at hp
        rw [T.unique i hi j hm hu hp.1 (hid.trans hp.2.symm)]

theorem semGetById_mem (h : semGetById k id = some i) :
    i < maxSemaphores ∧ (k.semaphores i).used = true ∧ (k.semaphores i).id = id := by
  unfold semGetById findSlotById at h
  split at h
  · cases h
  · have hm := List.mem_range.mp (List.mem_of_find?_eq_some h)
    have hp := List.find?_some h
    simp only [Bool.and_eq_true, decide_eq_true_eq] at hp
    exact ⟨hm, hp.1, hp.2⟩

/-- A signal only adds tokens and releases waiters. -/
theorem SignalEffect.kept {w : ℕ} (h : SignalEffect k id w k') :
    SemsKept [] k.semaphores k'.semaphores := by
  cases h with
  | missing => exact .refl _ _
  | incremented i found empty => exact .update _ rfl (by exact fun h => h) fun _ =>
      ⟨rfl, fun hw => ⟨hw, by simp only; omega⟩⟩
  | released i w found head ne => exact .update _ rfl (by exact fun h => h) fun _ =>
      ⟨rfl, fun hw => absurd (head.symm.trans hw) ne⟩

/-- Closing a semaphore leaves the others as they are. -/
theorem semCloseById_kept (k : Kernel) (id : ℕ) :
    ∃ sems', (semCloseById k id).2 = { k with semaphores := sems' } ∧
      SemsKept [id] k.semaphores sems' := by
  unfold semCloseById
  split
  · exact ⟨k.semaphores, rfl, .refl _ _⟩
  · rename_i i hfound
    refine ⟨_, rfl, .update _ ?_ ?_ fun hid => ?_⟩
    · split <;> rfl
    · split
      · intro h
        cases h
      · exact fun h => h
    · exact absurd (by simp [(semGetById_mem hfound).2.2]) hid

end Semaphores

section Frames

/-- The two states have the same pipes, descriptors and processes. -/
structure SameFds (k k' : Kernel) : Prop where
  fdType : k'.fdType = k.fdType
  fdPipe : k'.fdPipe = k.fdPipe
  allocated : k'.allocated = k.allocated
  current : k'.current = k.current

theorem SameFds.refl (k : Kernel) : SameFds k k := ⟨rfl, rfl, rfl, rfl⟩

theorem SameFds.trans {k'' : Kernel} (h : SameFds k k') (h' : SameFds k' k'') : SameFds k k'' :=
  ⟨h'.fdType.trans h.fdType, h'.fdPipe.trans h.fdPipe, h'.allocated.trans h.allocated,
    h'.current.trans h.current⟩

/-- The two states have the same pipes and hand out the same identifiers. -/
structure SamePipes (k k' : Kernel) : Prop where
  pipes : k'.pipes = k.pipes
  nextPipeId : k'.nextPipeId = k.nextPipeId
  nextSemId : k'.nextSemId = k.nextSemId

theorem SamePipes.refl (k : Kernel) : SamePipes k k := ⟨rfl, rfl, rfl⟩

theorem SamePipes.trans {k'' : Kernel} (h : SamePipes k k') (h' : SamePipes k' k'') :
    SamePipes k k'' :=
  ⟨h'.pipes.trans h.pipes, h'.nextPipeId.trans h.nextPipeId, h'.nextSemId.trans h.nextSemId⟩

theorem SignalEffect.same {w : ℕ} (h : SignalEffect k id w k') : SameFds k k' ∧ SamePipes k k' := by
  cases h <;> exact ⟨⟨rfl, rfl, rfl, rfl⟩, rfl, rfl, rfl⟩

end Frames

section Pipes

/-- The identifiers of the semaphores of a pipe. -/
def Pipe.semIds (p : Pipe) : List ℕ := [p.semItems, p.semSpaces, p.mutex]

/-- The pipes in use have different identifiers and semaphores of their own, and their
mutexes are free. -/
structure PipeTable (pipes : ℕ → Pipe) (nextPipe : ℕ) (sems : ℕ → Semaphore) (nextSem : ℕ) :
    Prop where
  table : SemTable sems nextSem
  nextPos : 0 < nextPipe
  nextSemPos : 0 < nextSem
  bound : ∀ i < maxPipes, (pipes i).used = true → 0 < (pipes i).id ∧ (pipes i).id < nextPipe
  unused : ∀ i < maxPipes, (pipes i).used = false → (pipes i).id = 0
  unique : ∀ i < maxPipes, ∀ j < maxPipes, (pipes i).used = true → (pipes j).used = true →
    (pipes i).id = (pipes j).id → i = j
  held : ∀ i < maxPipes, (pipes i).used = true → ∀ a ∈ (pipes i).semIds,
    ∃ j < maxSemaphores, (sems j).used = true ∧ (sems j).id = a
  mutex : ∀ i < maxPipes, (pipes i).used = true →
    ∃ j < maxSemaphores, (sems j).id = (pipes i).mutex ∧ (sems j).Free
  nodup : ∀ i < maxPipes, (pipes i).used = true → (pipes i).semIds.Nodup
  disjoint : ∀ i < maxPipes, ∀ j < maxPipes, (pipes i).used = true → (pipes j).used = true →
    ∀ a ∈ (pipes i).semIds, a ∈ (pipes j).semIds → i = j

variable {pipes : ℕ → Pipe} {nextPipe nextSem : ℕ}

theorem Semaphore.Free.kept (h : SemsKept X sems sems') (hX : (sems j).id ∉ X)
    (hf : (sems j).Free) : (sems' j).Free := by
  obtain ⟨hu, hv, hw⟩ := hf
  obtain ⟨hu', hkept⟩ := (h j).2.2 hX
  obtain ⟨hw', hv'⟩ := hkept hw
  exact ⟨hu'.trans hu, hv.trans_le hv', hw'⟩

/-- The semaphores of pipes in use stay. -/
theorem PipeTable.keptOff (T : PipeTable pipes nextPipe sems nextSem) (h : SemsKept X sems sems')
    (hX : ∀ i < maxPipes, (pipes i).used = true → ∀ a ∈ (pipes i).semIds, a ∉ X) :
    PipeTable pipes nextPipe sems' nextSem := by
  refine { T with table := T.table.kept h, held := fun i hi hu a ha => ?_, mutex := fun i hi hu => ?_ }
  · obtain ⟨j, hj, huj, hid⟩ := T.held i hi hu a ha
    exact ⟨j, hj, ((h j).2.2 (hid ▸ hX i hi hu a ha)).1.trans huj, (h j).1.trans hid⟩
  · obtain ⟨j, hj, hid, hf⟩ := T.mutex i hi hu
    exact ⟨j, hj, (h j).1.trans hid, hf.kept h (hid ▸ hX i hi hu _ (by simp [Pipe.semIds]))⟩

theorem PipeTable.kept (T : PipeTable pipes nextPipe sems nextSem) (h : SemsKept [] sems sems') :
    PipeTable pipes nextPipe sems' nextSem :=
  T.keptOff h fun _ _ _ _ _ => List.not_mem_nil

theorem PipeTable.semId_lt (T : PipeTable pipes nextPipe sems nextSem) (hi : i < maxPipes)
    (hu : (pipes i).used = true) {a : ℕ} (ha : a ∈ (pipes i).semIds) : 0 < a ∧ a < nextSem := by
  obtain ⟨j, hj, huj, rfl⟩ := T.held i hi hu a ha
  exact T.table.bound j hj huj

/-- Handing out a free entry of the table of semaphores. -/
theorem PipeTable.alloc (T : PipeTable pipes nextPipe sems nextSem) (hfree : (sems i).used = false)
    (s : Semaphore) (hid : s.id = nextSem) :
    PipeTable pipes nextPipe (update sems i s) (nextSem + 1) := by
  have hother : ∀ j, (sems j).used = true → update sems i s j = sems j := by
    intro j hj
    refine Function.update_of_ne (fun heq => ?_) _ _
    rw [heq, hfree] at hj
    cases hj
  refine { T with
    nextSemPos := Nat.succ_pos _
    table := ⟨fun j hj hu => ?_, fun j hj l hl huj hul heq => ?_⟩
    held := fun l hl hu a ha => ?_
    mutex := fun l hl hu => ?_ }
  · by_cases hji : j = i
    · rw [hji, Function.update_self, hid]
      exact ⟨T.nextSemPos, Nat.lt_succ_self _⟩
    · rw [Function.update_of_ne hji] at hu ⊢
      obtain ⟨h₁, h₂⟩ := T.table.bound j hj hu
      exact ⟨h₁, h₂.trans (Nat.lt_succ_self _)⟩
  · by_cases hji : j = i
    · by_cases hli : l = i
      · exact hji.trans hli.symm
      · rw [Function.update_of_ne hli] at hul heq
        rw [hji, Function.update_self, hid] at heq
        exact absurd heq.symm (T.table.bound l hl hul).2.ne
    · rw [Function.update_of_ne hji] at huj heq
      by_cases hli : l = i
      · rw [hli, Function.update_self, hid] at heq
        exact absurd heq (T.table.bound j hj huj).2.ne
      · rw [Function.update_of_ne hli] at hul heq
        exact T.table.unique j hj l hl huj hul heq
  · obtain ⟨j, hj, huj, hida⟩ := T.held l hl hu a ha
    exact ⟨j, hj, by rw [hother j huj, huj], by rw [hother j huj, hida]⟩
  · obtain ⟨j, hj, hida, hf⟩ := T.mutex l hl hu
    exact ⟨j, hj, by rw [hother j hf.1, hida], by rwa [hother j hf.1]⟩

/-- Writing to an entry that stays unused. -/
theorem PipeTable.clear (T : PipeTable pipes nextPipe sems nextSem) (p : Pipe) (hid : p.id = 0) (hused : p.used = false) :
    PipeTable (update pipes i p) nextPipe sems nextSem := by
  have hother : ∀ j, (update pipes i p j).used = true → update pipes i p j = pipes j := by
    intro j hj
    by_cases hji : j = i
    · rw [hji, Function.update_self, hused] at hj
      cases hj
    · exact Function.update_of_ne hji _ _
  obtain ⟨htable, hpos, hspos, hbound, hunused, hunique, hheld, hmut, hnodup, hdisj⟩ := T
  refine ⟨htable, hpos, hspos, fun j hj hu => ?_, fun j hj hu => ?_, fun j hj l hl huj hul heq => ?_,
    fun j hj hu => ?_, fun j hj hu => ?_, fun j hj hu => ?_, fun j hj l hl huj hul => ?_⟩
  · have heq := hother j hu
    rw [heq] at hu ⊢
    exact hbound j hj hu
  · by_cases hji : j = i
    · rw [hji, Function.update_self, hid]
    · rw [Function.update_of_ne hji] at hu ⊢
      exact hunused j hj hu
  · have hj' := hother j huj
    have hl' := hother l hul
    rw [hj'] at huj heq
    rw [hl'] at hul heq
    exact hunique j hj l hl huj hul heq
  · have heq := hother j hu
    rw [heq] at hu ⊢
    exact hheld j hj hu
  · have heq := hother j hu
    rw [heq] at hu ⊢
    exact hmut j hj hu
  · have heq := hother j hu
    rw [heq] at hu ⊢
    exact hnodup j hj hu
  · have hj' := hother j huj
    have hl' := hother l hul
    rw [hj'] at huj ⊢
    rw [hl'] at hul ⊢
    exact hdisj j hj l hl huj hul

/-- Putting a new pipe with semaphores of its own into a free entry. -/
theorem PipeTable.add (T : PipeTable pipes nextPipe sems nextSem) (p : Pipe) (hid : p.id = nextPipe) (hnodup : p.semIds.Nodup)
    (hheld : ∀ a ∈ p.semIds, ∃ j < maxSemaphores, (sems j).used = true ∧ (sems j).id = a)
    (hmutex : ∃ j < maxSemaphores, (sems j).id = p.mutex ∧ (sems j).Free)
    (hnew : ∀ j < maxPipes, (pipes j).used = true → ∀ a ∈ (pipes j).semIds, a ∉ p.semIds)
    (hused : p.used = true) : PipeTable (update pipes i p) (nextPipe + 1) sems nextSem := by
  have hold : ∀ j, j ≠ i → update pipes i p j = pipes j := fun j hj => Function.update_of_ne hj _ _
  have hself : update pipes i p i = p := Function.update_self _ _ _
  refine ⟨T.table, Nat.succ_pos _, T.nextSemPos, ?_, ?_, ?_, ?_, ?_, ?_, ?_⟩
  · intro j hj hu
    by_cases hji : j = i
    · rw [hji, hself, hid]
      exact ⟨T.nextPos, Nat.lt_succ_self _⟩
    · rw [hold j hji] at hu ⊢
      obtain ⟨h₁, h₂⟩ := T.bound j hj hu
      exact ⟨h₁, h₂.trans (Nat.lt_succ_self _)⟩
  · intro j hj hu
    by_cases hji : j = i
    · rw [hji, hself, hused] at hu
      cases hu
    · rw [hold j hji] at hu ⊢
      exact T.unused j hj hu
  · intro j hj l hl huj hul heq
    by_cases hji : j = i
    · by_cases hli : l = i
      · exact hji.trans hli.symm
      · rw [hold l hli] at hul heq
        rw [hji, hself, hid] at heq
        exact absurd heq.symm (T.bound l hl hul).2.ne
    · rw [hold j hji] at huj heq
      by_cases hli : l = i
      · rw [hli, hself, hid] at heq
        exact absurd heq (T.bound j hj huj).2.ne
      · rw [hold l hli] at hul heq
        exact T.unique j hj l hl huj hul heq
  · intro j hj hu
    by_cases hji : j = i
    · rw [hji, hself]
      exact hheld
    · rw [hold j hji] at hu ⊢
      exact T.held j hj hu
  · intro j hj hu
    by_cases hji : j = i
    · rw [hji, hself]
      exact hmutex
    · rw [hold j hji] at hu ⊢
      exact T.mutex j hj hu
  · intro j hj hu
    by_cases hji : j = i
    · rw [hji, hself]
      exact hnodup
    · rw [hold j hji] at hu ⊢
      exact T.nodup j hj hu
  · intro j hj l hl huj hul a haj hal
    by_cases hji : j = i
    · by_cases hli : l = i
      · exact hji.trans hli.symm
      · rw [hold l hli] at hul hal
        rw [hji, hself] at haj
        exact absurd haj (hnew l hl hul a hal)
    · rw [hold j hji] at huj haj
      by_cases hli : l = i
      · rw [hli, hself] at hal
        exact absurd hal (hnew j hj huj a haj)
      · rw [hold l hli] at hul hal
        exact T.disjoint j hj l hl huj hul a haj hal

/-- Changing a pipe that stays in use. -/
theorem PipeTable.modify (T : PipeTable pipes nextPipe sems nextSem) (p : Pipe)
    (hid : p.id = (pipes i).id) (hused : p.used = (pipes i).used)
    (hsems : p.semIds = (pipes i).semIds) (hmutex : p.mutex = (pipes i).mutex) :
    PipeTable (update pipes i p) nextPipe sems nextSem := by
  have hid' : ∀ j, (update pipes i p j).id = (pipes j).id := by
    intro j
    by_cases hj : j = i
    · rw [hj, Function.update_self, hid]
    · rw [Function.update_of_ne hj]
  have hused' : ∀ j, (update pipes i p j).used = (pipes j).used := by
    intro j
    by_cases hj : j = i
    · rw [hj, Function.update_self, hused]
    · rw [Function.update_of_ne hj]
  have hsems' : ∀ j, (update pipes i p j).semIds = (pipes j).semIds := by
    intro j
    by_cases hj : j = i
    · rw [hj, Function.update_self, hsems]
    · rw [Function.update_of_ne hj]
  have hmutex' : ∀ j, (update pipes i p j).mutex = (pipes j).mutex := by
    intro j
    by_cases hj : j = i
    · rw [hj, Function.update_self, hmutex]
    · rw [Function.update_of_ne hj]
  obtain ⟨htable, hpos, hspos, hbound, hunused, hunique, hheld, hmut, hnodup, hdisj⟩ := T
  refine ⟨htable, hpos, hspos, ?_, ?_, ?_, ?_, ?_, ?_, ?_⟩
  all_goals
    simp only [hid', hused', hsems', hmutex']
    assumption

/-- Giving up a pipe, whose semaphores may be closed. -/
theorem PipeTable.drop (T : PipeTable pipes nextPipe sems nextSem) (hi : i < maxPipes)
    (hui : (pipes i).used = true) (p : Pipe) (hid : p.id = 0) (hused : p.used = false)
    (h : SemsKept (pipes i).semIds sems sems') :
    PipeTable (update pipes i p) nextPipe sems' nextSem := by
  have hother : ∀ j, (update pipes i p j).used = true → j ≠ i ∧ update pipes i p j = pipes j := by
    intro j hj
    by_cases hji : j = i
    · rw [hji, Function.update_self, hused] at hj
      cases hj
    · exact ⟨hji, Function.update_of_ne hji _ _⟩
  have hnot : ∀ j < maxPipes, (pipes j).used = true → j ≠ i → ∀ a ∈ (pipes j).semIds,
      a ∉ (pipes i).semIds := fun j hj huj hji a ha ha' => hji (T.disjoint j hj i hi huj hui a ha ha')
  refine ⟨T.table.kept h, T.nextPos, T.nextSemPos, ?_, ?_, ?_, ?_, ?_, ?_, ?_⟩
  · intro j hj hu
    obtain ⟨-, heq⟩ := hother j hu
    rw [heq] at hu ⊢
    exact T.bound j hj hu
  · intro j hj hu
    by_cases hji : j = i
    · rw [hji, Function.update_self, hid]
    · rw [Function.update_of_ne hji] at hu ⊢
      exact T.unused j hj hu
  · intro j hj l hl huj hul heq
    have hj' := (hother j huj).2
    have hl' := (hother l hul).2
    rw [hj'] at huj heq
    rw [hl'] at hul heq
    exact T.unique j hj l hl huj hul heq
  · intro j hj hu a ha
    obtain ⟨hji, heq⟩ := hother j hu
    rw [heq] at hu ha
    obtain ⟨m, hm, hum, hida⟩ := T.held j hj hu a ha
    have hX : (sems m).id ∉ (pipes i).semIds := hida ▸ hnot j hj hu hji a ha
    exact ⟨m, hm, ((h m).2.2 hX).1.trans hum, (h m).1.trans hida⟩
  · intro j hj hu
    obtain ⟨hji, heq⟩ := hother j hu
    rw [heq] at hu ⊢
    obtain ⟨m, hm, hida, hf⟩ := T.mutex j hj hu
    have hX : (sems m).id ∉ (pipes i).semIds :=
      hida ▸ hnot j hj hu hji _ (by simp [Pipe.semIds])
    exact ⟨m, hm, (h m).1.trans hida, hf.kept h hX⟩
  · intro j hj hu
    obtain ⟨-, heq⟩ := hother j hu
    rw [heq] at hu ⊢
    exact T.nodup j hj hu
  · intro j hj l hl huj hul a haj hal
    have hj' := (hother j huj).2
    have hl' := (hother l hul).2
    rw [hj'] at huj haj
    rw [hl'] at hul hal
    exact T.disjoint j hj l hl huj hul a haj hal

end Pipes
end SoKernel
