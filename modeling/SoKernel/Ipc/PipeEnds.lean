import SoKernel.Ipc.PipeTable

/-!
# Opening and closing the ends of a pipe

One specification for each of `pipe_create`, `pipe_open_by_id` and `pipe_close_by_id`: how
the numbers of readers and writers change, when a pipe is destroyed, and that the tables of
semaphores and pipes stay in order.
-/

namespace SoKernel

open Function (update)

variable {k k' : Kernel} {id i j : ℕ} {isWriter : Bool}

/-- The tables of a kernel state. -/
abbrev Tables (k : Kernel) : Prop :=
  PipeTable k.pipes k.nextPipeId k.semaphores k.nextSemId

section Mutex

theorem pipeGetById_mem (h : pipeGetById k id = some i) :
    i < maxPipes ∧ (k.pipes i).used = true ∧ (k.pipes i).id = id := by
  unfold pipeGetById findPipeById at h
  split at h
  · cases h
  · have hm := List.mem_range.mp (List.mem_of_find?_eq_some h)
    have hp := List.find?_some h
    simp only [Bool.and_eq_true, decide_eq_true_eq] at hp
    exact ⟨hm, hp.1, hp.2⟩

/-- The search for the identifier of a pipe in use finds the pipe. -/
theorem pipeGetById_of_used (T : Tables k) (hi : i < maxPipes) (hu : (k.pipes i).used = true) :
    pipeGetById k (k.pipes i).id = some i := by
  have hpos := (T.bound i hi hu).1
  unfold pipeGetById findPipeById
  rw [if_neg (by omega)]
  cases hfind : (List.range maxPipes).find? fun j =>
      (k.pipes j).used && decide ((k.pipes j).id = (k.pipes i).id) with
  | none =>
      have hnot := List.find?_eq_none.mp hfind i (List.mem_range.mpr hi)
      simp [hu] at hnot
  | some j =>
      have hm := List.mem_range.mp (List.mem_of_find?_eq_some hfind)
      have hp := List.find?_some hfind
      simp only [Bool.and_eq_true, decide_eq_true_eq] at hp
      rw [T.unique i hi j hm hu hp.1 hp.2.symm]

/-- The mutex of a pipe is taken at once. -/
theorem mutexWait_spec (T : Tables k) (hi : i < maxPipes) (hu : (k.pipes i).used = true) :
    ∃ j v, j < maxSemaphores ∧ (k.semaphores j).id = (k.pipes i).mutex ∧ (k.semaphores j).Free ∧
      mutexWait k (k.pipes i).mutex = some (setSemValue k j v) ∧ (k.semaphores j).value ≤ v + 1 := by
  obtain ⟨j, hj, hid, hfree⟩ := T.mutex i hi hu
  have hfound : semGetById k (k.pipes i).mutex = some j := T.table.find.mpr ⟨hj, hfree.1, hid⟩
  by_cases hc : k.current = 0
  · refine ⟨j, (k.semaphores j).value, hj, hid, hfree, ?_, by omega⟩
    have hstart : semWaitStart k (k.pipes i).mutex = (k, .failed) := by
      simp only [semWaitStart, hfound, if_pos hc]
    simp only [mutexWait, hstart, setSemValue, Function.update_eq_self]
  · refine ⟨j, (k.semaphores j).value - 1, hj, hid, hfree, ?_, by omega⟩
    simp only [mutexWait, semWaitStart, hfound, if_neg hc, if_pos hfree.2.1]

/-- Giving the mutex back, after a part of the call in which semaphores lost no token. -/
theorem mutexSignal_spec (T : Tables k) (k₂ : Kernel) {v : ℤ} (hj : j < maxSemaphores)
    (hfree : (k.semaphores j).Free) (hv : (k.semaphores j).value ≤ v + 1)
    (hkept : SemsKept [] (setSemValue k j v).semaphores k₂.semaphores)
    (hnext : k₂.nextSemId = k.nextSemId) :
    ∃ k', semSignal k₂ (k.semaphores j).id = some k' ∧
      k' = { k₂ with semaphores := k'.semaphores } ∧ SemsKept [] k.semaphores k'.semaphores := by
  have htable : SemTable k₂.semaphores k₂.nextSemId := by
    rw [hnext]
    refine (T.table.kept (X := [(k.semaphores j).id]) (.update
      { k.semaphores j with value := v } rfl (by exact fun h => h) fun h => ?_)).kept hkept
    exact absurd (List.mem_singleton_self _) h
  obtain ⟨hid, -, hrest⟩ := hkept j
  simp only [Function.update_self] at hid hrest
  obtain ⟨hused, hmore⟩ := hrest List.not_mem_nil
  obtain ⟨hhead, hval⟩ := hmore hfree.2.2
  have hfound : semGetById k₂ (k.semaphores j).id = some j :=
    htable.find.mpr ⟨hj, hused.trans hfree.1, hid⟩
  refine ⟨_, semSignal_of_empty hfound hhead, rfl, fun l => ?_⟩
  by_cases hl : l = j
  · subst hl
    simp only [Function.update_self]
    exact ⟨hid, fun h => hused.symm.trans h, fun _ => ⟨hused, fun _ => ⟨hhead, by omega⟩⟩⟩
  · have hother := hkept l
    simp only [Function.update_of_ne hl] at hother ⊢
    exact hother

end Mutex

section Open

/-- The pipe with one more end. -/
def Pipe.opened (p : Pipe) (isWriter : Bool) : Pipe :=
  if isWriter then { p with writers := p.writers + 1 } else { p with readers := p.readers + 1 }

theorem Pipe.opened_same (p : Pipe) (isWriter : Bool) : (p.opened isWriter).id = p.id ∧
    (p.opened isWriter).used = p.used ∧ (p.opened isWriter).semIds = p.semIds ∧
    (p.opened isWriter).mutex = p.mutex := by
  cases isWriter <;> exact ⟨rfl, rfl, rfl, rfl⟩

/-- `pipe_open_by_id` returns, and counts one more end if there is such a pipe. -/
theorem pipeOpenById_spec (T : Tables k) (id : ℕ) (isWriter : Bool) :
    ∃ r k', pipeOpenById k id isWriter = some (r, k') ∧ Tables k' ∧ SameFds k k' ∧
      (r = 0 ∧ pipeGetById k id = none ∧ k' = k ∨
        r = 1 ∧ ∃ i, pipeGetById k id = some i ∧
          k'.pipes = update k.pipes i ((k.pipes i).opened isWriter)) := by
  unfold pipeOpenById
  cases hget : pipeGetById k id with
  | none => exact ⟨0, k, rfl, T, .refl k, Or.inl ⟨rfl, rfl, rfl⟩⟩
  | some i =>
      obtain ⟨hi, hu, -⟩ := pipeGetById_mem hget
      obtain ⟨j, v, hj, hid, hfree, hwait, hv⟩ := mutexWait_spec T hi hu
      obtain ⟨hpid, hpused, hpsems, hpmutex⟩ := (k.pipes i).opened_same isWriter
      obtain ⟨k', hsig, hk', hkept⟩ := mutexSignal_spec T
        (setPipe (setSemValue k j v) i ((k.pipes i).opened isWriter)) hj hfree hv (.refl _ _) rfl
      refine ⟨1, k', ?_, ?_, ?_, Or.inr ⟨rfl, i, rfl, ?_⟩⟩
      · have hmutex : (setPipe (setSemValue k j v) i
            ((k.pipes i).opened isWriter)).pipes i = (k.pipes i).opened isWriter := by
          simp only [setPipe, Function.update_self]
        simp only [hwait, Option.bind_eq_bind, Option.bind_some]
        have hopened : (if isWriter then
            { k.pipes i with writers := (k.pipes i).writers + 1 }
            else { k.pipes i with readers := (k.pipes i).readers + 1 }) =
              (k.pipes i).opened isWriter := rfl
        rw [hopened, hmutex, hpmutex, ← hid, hsig, Option.bind_some]
      · rw [hk']
        exact (T.modify (i := i) _ hpid hpused hpsems hpmutex).kept hkept
      · rw [hk']
        exact ⟨rfl, rfl, rfl, rfl⟩
      · rw [hk']
        rfl

end Open

section Close

/-- The pipe with one end less. -/
def Pipe.closed (p : Pipe) (isWriter : Bool) : Pipe :=
  if isWriter then if 0 < p.writers then { p with writers := p.writers - 1 } else p
  else if 0 < p.readers then { p with readers := p.readers - 1 } else p

/-- The entry of the table after the pipe was destroyed. -/
def Pipe.destroyed (p : Pipe) : Pipe :=
  { p with
    used := false
    id := 0
    semItems := 0
    semSpaces := 0
    mutex := 0
    readPos := 0
    writePos := 0
    count := 0 }

/-- The entry of the table after one end was closed. -/
def Pipe.afterClose (p : Pipe) (isWriter : Bool) : Pipe :=
  if (p.closed isWriter).readers = 0 ∧ (p.closed isWriter).writers = 0 then
    (p.closed isWriter).destroyed
  else p.closed isWriter

theorem Pipe.closed_same (p : Pipe) (isWriter : Bool) : (p.closed isWriter).id = p.id ∧
    (p.closed isWriter).used = p.used ∧ (p.closed isWriter).semIds = p.semIds ∧
    (p.closed isWriter).mutex = p.mutex := by
  unfold Pipe.closed
  cases isWriter
  · simp only [Bool.false_eq_true, if_false]
    split <;> exact ⟨rfl, rfl, rfl, rfl⟩
  · simp only [if_true]
    split <;> exact ⟨rfl, rfl, rfl, rfl⟩

theorem signalReaders_kept {n : ℕ} (h : signalReaders i n k = some k') :
    SemsKept [] k.semaphores k'.semaphores ∧ SameFds k k' ∧ SamePipes k k' := by
  induction n generalizing k with
  | zero =>
      cases h
      exact ⟨.refl _ _, .refl _, .refl _⟩
  | succ n ih =>
      rw [signalReaders, Option.bind_eq_bind] at h
      obtain ⟨k₁, hsig, h⟩ := Option.bind_eq_some_iff.mp h
      obtain ⟨w, heffect⟩ := semSignal_effect hsig
      obtain ⟨hkept, hfds, hpipes⟩ := ih h
      exact ⟨heffect.kept.trans hkept, heffect.same.1.trans hfds, heffect.same.2.trans hpipes⟩

/-- Closing the three semaphores of a pipe. -/
theorem closeSems_kept (k : Kernel) (a b c : ℕ) :
    ∃ sems', (semCloseById (semCloseById (semCloseById k a).2 b).2 c).2 =
        { k with semaphores := sems' } ∧ SemsKept [a, b, c] k.semaphores sems' := by
  obtain ⟨s₁, h₁, hk₁⟩ := semCloseById_kept k a
  obtain ⟨s₂, h₂, hk₂⟩ := semCloseById_kept { k with semaphores := s₁ } b
  obtain ⟨s₃, h₃, hk₃⟩ := semCloseById_kept { k with semaphores := s₂ } c
  refine ⟨s₃, by rw [h₁, h₂, h₃], ((hk₁.mono ?_).trans (hk₂.mono ?_)).trans (hk₃.mono ?_)⟩
  all_goals simp

/-- `pipe_close_by_id`, when it returns, counts one end less and destroys a pipe without
ends. -/
theorem pipeCloseById_spec (T : Tables k) {r : ℕ} (h : pipeCloseById k id isWriter = some (r, k')) :
    Tables k' ∧ SameFds k k' ∧
      (pipeGetById k id = none ∧ k' = k ∨ ∃ i, pipeGetById k id = some i ∧
        k'.pipes = update k.pipes i ((k.pipes i).afterClose isWriter)) := by
  unfold pipeCloseById at h
  cases hget : pipeGetById k id with
  | none =>
      rw [hget] at h
      cases h
      exact ⟨T, .refl _, Or.inl ⟨rfl, rfl⟩⟩
  | some i =>
      suffices hsome : Tables k' ∧ SameFds k k' ∧
          k'.pipes = update k.pipes i ((k.pipes i).afterClose isWriter) from
        ⟨hsome.1, hsome.2.1, Or.inr ⟨i, rfl, hsome.2.2⟩⟩
      obtain ⟨hi, hu, -⟩ := pipeGetById_mem hget
      obtain ⟨j, v, hj, hid, hfree, hwait, hv⟩ := mutexWait_spec T hi hu
      obtain ⟨hpid, hpused, hpsems, hpmutex⟩ := (k.pipes i).closed_same isWriter
      simp only [hget, hwait, Option.bind_eq_bind, Option.bind_some] at h
      have hclosed : (if isWriter then
          if 0 < (k.pipes i).writers then { k.pipes i with writers := (k.pipes i).writers - 1 }
          else k.pipes i
        else if 0 < (k.pipes i).readers then { k.pipes i with readers := (k.pipes i).readers - 1 }
          else k.pipes i) = (k.pipes i).closed isWriter := rfl
      rw [hclosed] at h
      unfold Pipe.afterClose
      generalize (k.pipes i).closed isWriter = p at h hpid hpused hpsems hpmutex ⊢
      by_cases hlast : p.readers = 0 ∧ p.writers = 0
      · rw [if_pos hlast] at h ⊢
        obtain ⟨k₁, hsig, h⟩ := Option.bind_eq_some_iff.mp h
        obtain ⟨k₂, hsig', hk₂, hkept⟩ := mutexSignal_spec T
          (setPipe (setPipe (setSemValue k j v) i p) i p.destroyed) hj hfree hv (.refl _ _) rfl
        rw [hid, ← hpmutex] at hsig'
        have heq : k₁ = k₂ := Option.some_inj.mp (hsig.symm.trans hsig')
        obtain ⟨sems', hclose, hkept'⟩ := closeSems_kept k₁ p.semItems p.semSpaces p.mutex
        rw [hclose] at h
        simp only [Option.some.injEq, Prod.mk.injEq] at h
        obtain ⟨-, rfl⟩ := h
        subst heq
        have hall : SemsKept (k.pipes i).semIds k.semaphores sems' :=
          (hkept.mono fun _ h => absurd h List.not_mem_nil).trans
            (hkept'.mono fun _ h => hpsems ▸ h)
        refine ⟨?_, ?_, ?_⟩
        · rw [hk₂]
          simp only [setPipe, Function.update_idem]
          exact T.drop hi hu p.destroyed rfl rfl hall
        · rw [hk₂]
          exact ⟨rfl, rfl, rfl, rfl⟩
        · rw [hk₂]
          simp only [setPipe, Function.update_idem]
      · rw [if_neg hlast] at h ⊢
        obtain ⟨k₁, hreaders, h⟩ := Option.bind_eq_some_iff.mp h
        obtain ⟨k₂, hsig, h⟩ := Option.bind_eq_some_iff.mp h
        simp only [Option.some.injEq, Prod.mk.injEq] at h
        obtain ⟨-, rfl⟩ := h
        have hkept₁ : SemsKept [] (setSemValue k j v).semaphores k₁.semaphores ∧
            SameFds (setPipe (setSemValue k j v) i p) k₁ ∧
            SamePipes (setPipe (setSemValue k j v) i p) k₁ := by
          split at hreaders
          · exact signalReaders_kept hreaders
          · cases hreaders
            exact ⟨.refl _ _, .refl _, .refl _⟩
        obtain ⟨hkept₁, hfds, hpipes⟩ := hkept₁
        have hpipes₁ : k₁.pipes = update k.pipes i p := hpipes.pipes
        obtain ⟨k₃, hsig', hk₃, hkept⟩ := mutexSignal_spec T k₁ hj hfree hv hkept₁
          hpipes.nextSemId
        rw [hpipes₁, Function.update_self, hpmutex, ← hid] at hsig
        have heq : k₂ = k₃ := Option.some_inj.mp (hsig.symm.trans hsig')
        subst heq
        refine ⟨?_, ?_, ?_⟩
        · rw [hk₃]
          simp only [Tables, hpipes₁, hpipes.nextPipeId, hpipes.nextSemId]
          exact (T.modify (i := i) p hpid hpused hpsems hpmutex).kept hkept
        · rw [hk₃]
          exact ⟨hfds.fdType, hfds.fdPipe, hfds.allocated, hfds.current⟩
        · rw [hk₃]
          exact hpipes₁

end Close

section Create

/-- What `sem_alloc` leaves as it is. -/
structure AllocFrame (k k' : Kernel) : Prop where
  tables : Tables k'
  fds : SameFds k k'
  pipes : k'.pipes = k.pipes
  nextPipeId : k'.nextPipeId = k.nextPipeId
  semaphores : ∀ l, (k.semaphores l).used = true → k'.semaphores l = k.semaphores l

/-- `sem_alloc` fails or makes a new semaphore in an unused entry. -/
theorem semAlloc_spec (T : Tables k) (v : ℤ) :
    ∃ r k', semAlloc k v = (r, k') ∧ AllocFrame k k' ∧
      (r = 0 ∧ k' = k ∨ r = k.nextSemId ∧ k'.nextSemId = k.nextSemId + 1 ∧
        ∃ j < maxSemaphores, k'.semaphores j = ⟨k.nextSemId, v, 1, 0, 0, true⟩) := by
  unfold semAlloc
  split
  · exact ⟨0, k, rfl, ⟨T, .refl k, rfl, rfl, fun _ _ => rfl⟩, Or.inl ⟨rfl, rfl⟩⟩
  · rename_i j hfind
    have hj := List.mem_range.mp (List.mem_of_find?_eq_some hfind)
    have hfree : (k.semaphores j).used = false := by
      have hp := List.find?_some hfind
      simpa using hp
    refine ⟨_, _, rfl, ⟨T.alloc hfree _ rfl, ⟨rfl, rfl, rfl, rfl⟩, rfl, rfl, fun l hl => ?_⟩,
      Or.inr ⟨rfl, rfl, j, hj, Function.update_self _ _ _⟩⟩
    refine Function.update_of_ne (fun heq => ?_) _ _
    rw [heq, hfree] at hl
    cases hl

/-- Closing semaphores that belong to no pipe in use. -/
theorem Tables.close (T : Tables k) {n : ℕ} (hn : n ≤ id)
    (hlow : ∀ i < maxPipes, (k.pipes i).used = true → ∀ a ∈ (k.pipes i).semIds, a < n) :
    ∃ sems', (semCloseById k id).2 = { k with semaphores := sems' } ∧
      Tables { k with semaphores := sems' } := by
  obtain ⟨sems', heq, hkept⟩ := semCloseById_kept k id
  refine ⟨sems', heq, T.keptOff hkept fun i hi hu a ha hm => ?_⟩
  have hlt := hlow i hi hu a ha
  rw [List.mem_singleton.mp hm] at hlt
  omega

/-- `pipe_create` fails and leaves the pipes in use as they are, or makes a new pipe. -/
theorem pipeCreate_spec (T : Tables k) :
    ∃ r k', pipeCreate k = (r, k') ∧ Tables k' ∧ SameFds k k' ∧
      (r = 0 ∧ (k'.pipes = k.pipes ∨ ∃ i p, (k.pipes i).used = false ∧ p.used = false ∧
          k'.pipes = update k.pipes i p) ∨
        r = k.nextPipeId ∧ k'.nextPipeId = k.nextPipeId + 1 ∧ ∃ i < maxPipes, ∃ p,
          (k.pipes i).used = false ∧ p.used = true ∧ p.readers = 0 ∧ p.writers = 0 ∧
          p.id = k.nextPipeId ∧ k'.pipes = update k.pipes i p) := by
  unfold pipeCreate
  split
  · exact ⟨0, k, rfl, T, .refl k, Or.inl ⟨rfl, Or.inl rfl⟩⟩
  rename_i i hfind
  have hi := List.mem_range.mp (List.mem_of_find?_eq_some hfind)
  have hui : (k.pipes i).used = false := by
    have hp := List.find?_some hfind
    simpa using hp
  have hpos := T.nextSemPos
  have hlow : ∀ l < maxPipes, (k.pipes l).used = true → ∀ a ∈ (k.pipes l).semIds,
      a < k.nextSemId := fun l hl hu a ha => (T.semId_lt hl hu ha).2
  obtain ⟨r₁, k₁, h₁, F₁, hcase₁⟩ := semAlloc_spec T 0
  obtain ⟨r₂, k₂, h₂, F₂, hcase₂⟩ := semAlloc_spec F₁.tables pipeBufferSize
  obtain ⟨r₃, k₃, h₃, F₃, hcase₃⟩ := semAlloc_spec F₂.tables 1
  have hp₂ : k₂.pipes = k.pipes := F₂.pipes.trans F₁.pipes
  have hp₃ : k₃.pipes = k.pipes := F₃.pipes.trans hp₂
  -- a failure clears the entry and closes the semaphores made so far
  have hfail : ∀ (k' : Kernel) (p : Pipe), Tables k' → SameFds k k' → k'.pipes = k.pipes →
      p.id = 0 → p.used = false →
      Tables (setPipe k' i p) ∧ SameFds k (setPipe k' i p) ∧
        ((0 = 0 ∧ ((setPipe k' i p).pipes = k.pipes ∨ ∃ i' p', (k.pipes i').used = false ∧
          p'.used = false ∧ (setPipe k' i p).pipes = update k.pipes i' p'))) := by
    intro k' p T' hf hp hid hu
    refine ⟨T'.clear p hid hu, ⟨hf.fdType, hf.fdPipe, hf.allocated, hf.current⟩, rfl,
      Or.inr ⟨i, p, hui, hu, ?_⟩⟩
    simp only [setPipe, hp]
  simp only [h₁, h₂, h₃]
  rcases hcase₁ with ⟨rfl, -⟩ | ⟨rfl, hn₁, j₁, hj₁, hs₁⟩
  · rw [if_pos rfl]
    obtain ⟨hT, hf, hres⟩ := hfail k₁ ⟨0, fun _ => 0, 0, 0, 0, 0, 0, 0, 0, 0, false⟩ F₁.tables F₁.fds
      F₁.pipes rfl rfl
    exact ⟨0, _, rfl, hT, hf, Or.inl hres⟩
  rw [if_neg (by omega)]
  rcases hcase₂ with ⟨rfl, -⟩ | ⟨rfl, hn₂, j₂, hj₂, hs₂⟩
  · rw [if_pos rfl]
    obtain ⟨sems', hclose, T'⟩ := F₂.tables.close (le_refl k.nextSemId)
      (by rw [hp₂]; exact hlow)
    rw [hclose]
    obtain ⟨hT, hf, hres⟩ := hfail { k₂ with semaphores := sems' }
      ⟨0, fun _ => 0, 0, 0, 0, 0, 0, k.nextSemId, 0, 0, false⟩ T'
      ⟨(F₁.fds.trans F₂.fds).fdType, (F₁.fds.trans F₂.fds).fdPipe, (F₁.fds.trans F₂.fds).allocated,
        (F₁.fds.trans F₂.fds).current⟩ hp₂ rfl rfl
    exact ⟨0, _, rfl, hT, hf, Or.inl hres⟩
  rw [if_neg (by omega)]
  have hfds := (F₁.fds.trans F₂.fds).trans F₃.fds
  rcases hcase₃ with ⟨rfl, -⟩ | ⟨rfl, hn₃, j₃, hj₃, hs₃⟩
  · rw [if_pos rfl]
    obtain ⟨sems', hclose, T'⟩ := F₃.tables.close (le_refl k.nextSemId)
      (by rw [hp₃]; exact hlow)
    obtain ⟨sems'', hclose', T''⟩ := T'.close (show k.nextSemId ≤ k₁.nextSemId by omega)
      (by dsimp only; rw [hp₃]; exact hlow)
    rw [hclose, hclose']
    obtain ⟨hT, hf, hres⟩ := hfail { k₃ with semaphores := sems'' }
      ⟨0, fun _ => 0, 0, 0, 0, 0, 0, k.nextSemId, k₁.nextSemId, 0, false⟩ T''
      ⟨hfds.fdType, hfds.fdPipe, hfds.allocated, hfds.current⟩ hp₃ rfl rfl
    exact ⟨0, _, rfl, hT, hf, Or.inl hres⟩
  rw [if_neg (by omega)]
  have hnp : k₃.nextPipeId = k.nextPipeId :=
    F₃.nextPipeId.trans (F₂.nextPipeId.trans F₁.nextPipeId)
  have hs₁' : k₃.semaphores j₁ = ⟨k.nextSemId, 0, 1, 0, 0, true⟩ := by
    have hmid : k₂.semaphores j₁ = k₁.semaphores j₁ := F₂.semaphores j₁ (by rw [hs₁])
    rw [F₃.semaphores j₁ (by rw [hmid, hs₁]), hmid, hs₁]
  have hs₂' : k₃.semaphores j₂ = ⟨k₁.nextSemId, pipeBufferSize, 1, 0, 0, true⟩ := by
    rw [F₃.semaphores j₂ (by rw [hs₂]), hs₂]
  refine ⟨_, _, rfl, ?_, ⟨hfds.fdType, hfds.fdPipe, hfds.allocated, hfds.current⟩,
    Or.inr ⟨hnp, by dsimp only [setPipe]; rw [hnp], i, hi,
      ⟨k₃.nextPipeId, fun _ => 0, 0, 0, 0, 0, 0, k.nextSemId, k₁.nextSemId, k₂.nextSemId, true⟩, hui,
      rfl, rfl, rfl, hnp, by simp only [setPipe, hp₃]⟩⟩
  refine F₃.tables.add _ rfl ?_ ?_ ?_ ?_ rfl
  · simp only [Pipe.semIds, List.nodup_cons, List.mem_cons, List.not_mem_nil, or_false,
      List.nodup_nil, not_false_eq_true, and_true, not_or]
    omega
  · intro a ha
    simp only [Pipe.semIds, List.mem_cons, List.not_mem_nil, or_false] at ha
    rcases ha with rfl | rfl | rfl
    · exact ⟨j₁, hj₁, by rw [hs₁'], by rw [hs₁']⟩
    · exact ⟨j₂, hj₂, by rw [hs₂'], by rw [hs₂']⟩
    · exact ⟨j₃, hj₃, by rw [hs₃], by rw [hs₃]⟩
  · exact ⟨j₃, hj₃, by rw [hs₃], by rw [hs₃]; exact ⟨rfl, Int.one_pos, rfl⟩⟩
  · intro l hl hu a ha hm
    rw [hp₃] at hu ha
    have hlt := hlow l hl hu a ha
    simp only [Pipe.semIds, List.mem_cons, List.not_mem_nil, or_false] at hm
    omega

end Create
end SoKernel
