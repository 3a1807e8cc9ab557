import SoKernel.Ipc.Runner
import SoKernel.Ipc.SemLedger
import SoKernel.Lib.SemaphoreRuns

/-!
# The tokens of one semaphore

Any number of processes wait for a semaphore, signal it and set it, in any order. The steps of the
machine are moves of the counting semaphore that the table and the links represent, so that the
results on runs of a counting semaphore are about the value and the wait queue of `semaphore.c`.
-/

namespace SoKernel

open Function (update)
open CountingSemaphore

section Observation

/-- The process that `sem_signal_by_id` releases. -/
def signalReleases (k : Kernel) (id : ℕ) : List ℕ :=
  match semSignalById k id with
  | some (_, w, _) => if w = 0 then [] else [w]
  | none => []

/-- The processes that `sem_set_by_id` releases, in order. -/
def setReleases (k : Kernel) (id : ℕ) (newval : ℤ) : List ℕ :=
  match semSetById k id newval with
  | some (_, ws, _) => ws
  | none => []

/-- What a step is for a semaphore, from the kernel before the step. A call that returns `0` has
done nothing. -/
def semEvents (a : ℕ) (k : Kernel) : Option IpcEvent → List (Event ℕ)
  | some ⟨p, .semWait id, r⟩ =>
      if id ≠ a then []
      else if r = .blocked then [.queued p]
      else if r = .value 0 then []
      else [.taken p]
  | some ⟨p, .semSignal id, r⟩ =>
      if id ≠ a ∨ r = .value 0 then []
      else .signalled p :: (signalReleases k a).map .released
  | some ⟨_, .semSet id v, r⟩ =>
      if id ≠ a ∨ r = .value 0 then []
      else .assigned v.toNat :: (setReleases k a v).map .released
  | _ => []

def semValue (k : Kernel) (id : ℕ) : Option ℤ :=
  (semGetById k id).map fun i => (k.semaphores i).value

variable {σ : Type}

/-- The runs during which a semaphore stays open: what happened to it and the state reached. -/
inductive SemSteps (prog : Program σ) (a : ℕ) (start : Ipc σ) : List (Event ℕ) → Ipc σ → Prop
  | nil : SemSteps prog a start [] start
  | snoc {l m e m'} (run : SemSteps prog a start l m) (step : IpcStep prog m e m')
      (stays : semGetById m'.kernel a ≠ none) :
      SemSteps prog a start (l ++ semEvents a m.kernel e) m'

end Observation

variable {k k' k₁ : Kernel} {V V' : Sems} {c : IpcCall} {r : Reply} {a id i p n w : ℕ} {v : ℤ}
  {s : CountingSemaphore ℕ}

section Calls

/-- The represented semaphores are determined. -/
theorem Represents.unique (h : Represents k V) (h' : Represents k V') : V = V' := by
  funext id
  cases hs : V id with
  | none => exact (h'.missing.mp (h.missing.mpr hs)).symm
  | some s =>
      obtain ⟨i, hi⟩ := h.get hs
      obtain ⟨s', hs', hi'⟩ := h'.of_found hi.found
      have hvalue : s.value = s'.value := hi.value.symm.trans hi'.value
      have hqueue : s.queue = s'.queue := hi.queue.chain.unique hi'.queue.chain
      rw [hs', ← show s = s' by cases s; cases s'; cases hvalue; cases hqueue; rfl]

theorem Represents.semValue (h : Represents k V) (hs : V id = some s) :
    semValue k id = some s.value := by
  obtain ⟨i, hi⟩ := h.get hs
  rw [SoKernel.semValue, hi.found, Option.map_some, hi.value]

theorem semSignalById_found (h : semSignalById k id = some (n, w, k'))
    (hfound : semGetById k id = some i) : n = 1 := by
  unfold semSignalById at h
  rw [hfound] at h
  dsimp only at h
  split at h
  · obtain ⟨k₁, -, h⟩ := Option.bind_eq_some_iff.mp h
    cases h
    rfl
  · cases h
    rfl

theorem semSetById_found {ws : List ℕ} (h : semSetById k id v = some (n, ws, k'))
    (hfound : semGetById k id = some i) : n = if v < 0 then 0 else 1 := by
  unfold semSetById at h
  rw [hfound] at h
  dsimp only at h
  split at h
  · rename_i hneg
    cases h
    exact (if_pos hneg).symm
  · rename_i hneg
    obtain ⟨x, -, h⟩ := Option.bind_eq_some_iff.mp h
    cases h
    exact (if_neg hneg).symm

theorem Represents.signalReleases (h : Represents k V) (hs : V id = some s)
    (hsignal : semSignalById k id = some (n, w, k')) :
    signalReleases k id = s.queue.take 1 := by
  rw [SoKernel.signalReleases, hsignal]
  dsimp only
  cases semSignalById_effect hsignal with
  | missing hnone =>
      rw [h.missing.mp hnone] at hs
      cases hs
  | incremented i found empty =>
      obtain ⟨s', hs', hi⟩ := h.of_found found
      rw [hs, Option.some_inj] at hs'
      rw [if_pos rfl, hs', hi.queue.head_eq_null.mp empty, List.take_nil]
  | released i w found head ne l b =>
      obtain ⟨s', hs', hi⟩ := h.of_found found
      have hfirst := (h.release hs' hi head ne).2
      rw [Sems.first_of_some hs'] at hfirst
      rw [hs, Option.some_inj] at hs'
      rw [if_neg ne, hs', hfirst]

/-- A semaphore that no pipe owns is none of the three of a pipe in use. -/
theorem not_mem_semIds (hown : ¬PipeSem k a) (hi : i < maxPipes) (hu : (k.pipes i).used = true) :
    a ∉ (k.pipes i).semIds :=
  fun hm => hown (pipeSem_iff.mpr ⟨i, hi, hu, hm⟩)

/-- No call makes the semaphore of a user one of a pipe. -/
theorem IpcEffect.not_pipeSem (h : Sound k V) (hexec : ipcExec k c = some (k', r))
    (effect : IpcEffect k V k' V' c r) (hs : V a = some s) (hown : ¬PipeSem k a) : ¬PipeSem k' a := by
  cases effect with
  | semAlloc _ pipes => exact fun hp => hown ((pipeSem_congr pipes).mp hp)
  | semOpen aside => exact fun hp => hown ((pipeSem_congr aside.pipes).mp hp)
  | semClose _ aside => exact fun hp => hown ((pipeSem_congr aside.pipes).mp hp)
  | semMissing none kernel sems => exact fun hp => hown (kernel ▸ hp)
  | semTaken _ _ _ aside => exact fun hp => hown ((pipeSem_congr aside.pipes).mp hp)
  | semSignal _ aside => exact fun hp => hown ((pipeSem_congr aside.pipes).mp hp)
  | semSetFailed kernel sems => exact fun hp => hown (kernel ▸ hp)
  | semSet _ _ aside => exact fun hp => hown ((pipeSem_congr aside.pipes).mp hp)
  | pipeMissing none kernel sems => exact fun hp => hown (kernel ▸ hp)
  | pipeOpen found aside state sems =>
      have effect := IpcEffect.pipeOpen (r := r) found aside state sems
      exact fun hp => hown ((effect.pipeSem (by exact trivial)).mp hp)
  | readTurn bound effect =>
      have effect := IpcEffect.readTurn bound effect
      exact fun hp => hown ((effect.pipeSem (by exact trivial)).mp hp)
  | writeTurn bound effect =>
      have effect := IpcEffect.writeTurn bound effect
      exact fun hp => hown ((effect.pipeSem (by exact trivial)).mp hp)
  | pipeClose effect =>
      cases effect with
      | missing _ kernel => exact fun hp => hown (kernel ▸ hp)
      | closed i _ _ _ _ aside =>
          obtain ⟨-, hused, hsems, -⟩ := (k.pipes i).closed_same ‹Bool›
          exact fun hp => hown ((aside.pipeSem hused hsems).mp hp)
      | destroyed i _ _ aside =>
          intro hp
          obtain ⟨j, hj, hu, hm⟩ := pipeSem_iff.mp hp
          rw [show k'.pipes = update k.pipes i _ from aside.pipes] at hu hm
          by_cases hji : j = i
          · rw [hji, Function.update_self] at hu
            cases hu
          · rw [Function.update_of_ne hji] at hu hm
            exact hown (pipeSem_iff.mpr ⟨j, hj, hu, hm⟩)
  | pipeCreate =>
      obtain ⟨j, hj, hused, hid⟩ := h.sems.present a s hs
      have hlt : a < k.nextSemId := hid ▸ (h.sems.table.bound j hj hused).2
      obtain ⟨x, hcreate⟩ : ∃ x, SoKernel.pipeCreate k = (x, k') := by
        cases hexec
        exact ⟨_, rfl⟩
      intro hp
      obtain ⟨j, hj, hu, hm⟩ := pipeSem_iff.mp hp
      rcases pipeCreate_refs h.sems.table h.sems.next hcreate with
        ⟨-, -, -, hsame⟩ | ⟨i, q, -, -, -, hpipes, -, hids, -⟩
      · rw [(hsame j).1] at hu
        rw [(hsame j).2 hu] at hm
        exact hown (pipeSem_iff.mpr ⟨j, hj, hu, hm⟩)
      · rw [hpipes] at hu hm
        by_cases hji : j = i
        · rw [hji, Function.update_self, hids] at hm
          simp only [List.mem_cons, List.not_mem_nil, or_false] at hm
          omega
        · rw [Function.update_of_ne hji] at hu hm
          exact hown (pipeSem_iff.mpr ⟨j, hj, hu, hm⟩)

theorem semEvents_set (a p : ℕ) (k : Kernel) (id : ℕ) (v : ℤ) (r : Reply) :
    semEvents a k (some ⟨p, .semSet id v, r⟩) = if id ≠ a ∨ r = .value 0 then []
      else .assigned v.toNat :: (setReleases k a v).map .released := rfl

/-- `sem_set_by_id` as a move of the semaphore. -/
theorem Sound.setMove {ws : List ℕ} (h : Sound k V) (h' : Sound k' V')
    (hset : semSetById k id v = some (n, ws, k')) (hs : V a = some s) :
    ∃ s', V' a = some s' ∧ Move s (semEvents a k (some ⟨p, .semSet id v, .value n⟩)) s' := by
  rw [semEvents_set]
  rcases h.sems.set hset with ⟨hfail, rfl, -⟩ | ⟨t, ht, hv, hws, hrep, -, -⟩
  · obtain rfl := h.sems.unique h'.sems
    have hempty : id ≠ a ∨ Reply.value n = .value 0 := by
      refine or_iff_not_imp_left.mpr fun hid => ?_
      obtain rfl := not_not.mp hid
      obtain ⟨i, hi⟩ := h.sems.get hs
      have hneg : v < 0 := hfail.resolve_left (by simp [hs])
      rw [semSetById_found hset hi.found, if_pos hneg]
    rw [if_pos hempty]
    exact ⟨s, hs, .idle⟩
  · obtain rfl := hrep.unique h'.sems
    by_cases hid : id = a
    · subst hid
      rw [hs, Option.some_inj] at ht
      subst ht
      obtain ⟨i, hi⟩ := h.sems.get hs
      have hn : n = 1 := (semSetById_found hset hi.found).trans (if_neg (not_lt.mpr hv))
      have hreleases : setReleases k id v = s.queue.take v.toNat := by
        rw [setReleases, hset]
        exact hws
      rw [if_neg (by simp [hn]), hreleases]
      exact ⟨s.set v.toNat, Function.update_self .., .assigned _⟩
    · rw [if_pos (.inl hid)]
      exact ⟨s, (Function.update_of_ne (Ne.symm hid) ..).trans hs, .idle⟩

/-- A call that does not block, as a move of the semaphore, unless it closes the semaphore. -/
theorem Sound.semMove (h : Sound k V) (h' : Sound k' V') (hexec : ipcExec k c = some (k', r))
    (hr : r ≠ .blocked) (effect : IpcEffect k V k' V' c r) (hs : V a = some s)
    (hown : ¬PipeSem k a) :
    V' a = none ∨ ∃ s', V' a = some s' ∧ Move s (semEvents a k (some ⟨k.current, c, r⟩)) s' := by
  have hout : k.current ∉ s.queue := h.away a s hs
  have hsame : V' a = V a → ∃ s', V' a = some s' ∧ Move s [] s' := fun he => ⟨s, he.trans hs, .idle⟩
  have hother : ∀ b x, V' = update V b x → a ≠ b → V' a = V a := by
    intro b x hsems hne
    rw [hsems, Function.update_of_ne hne]
  have hpipe : ∀ i < maxPipes, (k.pipes i).used = true → a ∉ (k.pipes i).semIds :=
    fun i hi hu => not_mem_semIds hown hi hu
  cases effect with
  | semAlloc grown => exact .inr (hsame ((grown.old a s hs).trans hs.symm))
  | semOpen _ _ sems => exact .inr (hsame (by rw [sems]))
  | @semClose id _ _ _ _ sems =>
      by_cases hid : a ∈ [id]
      · obtain he | he := sems.2 a hid
        · exact .inr (hsame he)
        · exact .inl he
      · exact .inr (hsame (sems.1 a hid))
  | @semMissing id none _ sems =>
      have hne : id ≠ a := by
        rintro rfl
        rw [hs] at none
        cases none
      rw [semEvents, if_pos hne]
      exact .inr (hsame (by rw [sems]))
  | @semTaken id t _ entry pos _ _ sems =>
      right
      by_cases hid : id = a
      · subst hid
        rw [hs, Option.some_inj] at entry
        subst entry
        rw [semEvents, if_neg (not_not.mpr rfl), if_neg (by simp), if_neg (by simp)]
        exact ⟨s.take, by rw [sems, Function.update_self], .taken hout pos⟩
      · rw [semEvents, if_pos hid]
        exact hsame (hother id _ sems (Ne.symm hid))
  | @semSignal id _ _ _ _ sems =>
      right
      obtain ⟨⟨n, w, k₁⟩, hsignal, hlast⟩ := Option.map_eq_some_iff.mp hexec
      cases hlast
      by_cases hid : id = a
      · subst hid
        obtain ⟨i, hi⟩ := h.sems.get hs
        obtain rfl := semSignalById_found hsignal hi.found
        rw [semEvents, if_neg (by simp), h.sems.signalReleases hs hsignal]
        rw [Sems.signal_of_some hs] at sems
        exact ⟨s.signal, by rw [sems, Function.update_self], .signalled hout⟩
      · rw [semEvents, if_pos (.inl hid)]
        exact hsame (hother id _ sems (Ne.symm hid))
  | pipeCreate grown => exact .inr (hsame ((grown.old a s hs).trans hs.symm))
  | pipeMissing _ _ sems => exact .inr (hsame (by rw [sems]))
  | pipeOpen _ _ _ sems => exact .inr (hsame (by rw [sems]))
  | pipeClose effect =>
      right
      cases effect with
      | missing _ _ sems => exact hsame (by rw [sems])
      | closed i _ found _ _ _ _ sems =>
          obtain ⟨hi, hu, -⟩ := pipeGetById_mem found
          exact hsame (hother _ _ sems fun he => hpipe i hi hu (by simp [Pipe.semIds, he]))
      | destroyed i found _ _ _ sems =>
          obtain ⟨hi, hu, -⟩ := pipeGetById_mem found
          exact hsame (sems.1 a (hpipe i hi hu))
  | @readTurn i _ _ bound effect =>
      right
      cases effect with
      | gone _ _ sems => exact hsame (by rw [sems])
      | ended _ _ _ _ _ sems => exact hsame (by rw [sems])
      | moved used _ _ _ sems =>
          exact hsame (hother _ _ sems fun he => hpipe i bound used (by simp [Pipe.semIds, he]))
      | again used _ _ _ _ _ _ sems =>
          exact hsame (hother _ _ sems fun he => hpipe i bound used (by simp [Pipe.semIds, he]))
  | @writeTurn i _ _ bound effect =>
      right
      cases effect with
      | gone _ _ sems => exact hsame (by rw [sems])
      | ended _ _ _ _ sems => exact hsame (by rw [sems])
      | moved used _ _ _ _ sems =>
          exact hsame (hother _ _ sems fun he => hpipe i bound used (by simp [Pipe.semIds, he]))
      | again used _ _ _ _ _ _ _ sems =>
          exact hsame (hother _ _ sems fun he => hpipe i bound used (by simp [Pipe.semIds, he]))
  | semSetFailed | semSet =>
      obtain ⟨⟨n, ws, k₁⟩, hset, hlast⟩ := Option.map_eq_some_iff.mp hexec
      cases hlast
      exact .inr (h.setMove h' hset hs)

end Calls

section Runs

variable {σ : Type} {prog : Program σ} {start m m' m₀ m₁ m₂ : Ipc σ} {e : Option IpcEvent}
  {l l₁ l₂ : List (Event ℕ)} {t : List IpcEvent}

/-- A step of the machine is a move of every semaphore that stays open and belongs to no pipe. -/
theorem IpcStep.semMove (h : Sound m.kernel V) (step : IpcStep prog m e m') (hs : V a = some s)
    (hown : ¬PipeSem m.kernel a) (stays : semGetById m'.kernel a ≠ none) :
    ∃ V' s', Sound m'.kernel V' ∧ ¬PipeSem m'.kernel a ∧ V' a = some s' ∧
      Move s (semEvents a m.kernel e) s' := by
  cases step with
  | @call c next k' r caller acts promise step runs =>
      rcases h.exec caller promise step with ⟨-, -, V', h', effect⟩ | ⟨hr, -⟩
      · have hnone : V' a ≠ none := fun hn => stays (h'.sems.missing.mpr hn)
        obtain ⟨s', hs', move⟩ := (h.semMove h' step runs effect hs hown).resolve_left hnone
        exact ⟨V', s', h', effect.not_pipeSem h step hs hown, hs', move⟩
      · exact absurd hr runs
  | @block c next k₁ ch k' caller acts promise step pick nobody switch =>
      rcases h.exec caller promise step with ⟨hr, -⟩ | ⟨-, b, t, hwaits, hqueued⟩
      · exact absurd rfl hr
      obtain ⟨h', hpipes, -⟩ := h.block hqueued nobody pick switch
      have hown' : ¬PipeSem k' a := fun hp => hown ((pipeSem_congr hpipes).mp hp)
      have hother : a ≠ b → ∃ s', update V b (some (t.enqueue m.kernel.current)) a = some s' ∧
          Move s [] s' :=
        fun hne => ⟨s, (Function.update_of_ne hne ..).trans hs, .idle⟩
      suffices hmove : ∃ s', update V b (some (t.enqueue m.kernel.current)) a = some s' ∧
          Move s (semEvents a m.kernel (some ⟨m.kernel.current, c, .blocked⟩)) s' by
        obtain ⟨s', hs', move⟩ := hmove
        exact ⟨_, s', h', hown', hs', move⟩
      cases c with
      | semWait id =>
          obtain ⟨rfl, -⟩ := hwaits
          by_cases hb : b = a
          · subst hb
            have ht := hs.symm.trans hqueued.entry
            rw [Option.some_inj] at ht
            subst ht
            rw [semEvents, if_neg (not_not.mpr rfl), if_pos rfl]
            exact ⟨_, Function.update_self .., .queued (h.away b s hs) hqueued.empty⟩
          · rw [semEvents, if_pos hb]
            exact hother (Ne.symm hb)
      | readTurn i n =>
          obtain ⟨rfl, hi, hu, -⟩ := hwaits
          have hmem := not_mem_semIds hown hi hu
          exact hother fun he => hmem (by simp [Pipe.semIds, he])
      | writeTurn i b =>
          obtain ⟨rfl, hi, hu, -⟩ := hwaits
          have hmem := not_mem_semIds hown hi hu
          exact hother fun he => hmem (by simp [Pipe.semIds, he])
      | _ => exact hwaits.elim
  | switch pick nobody switch =>
      obtain ⟨h', hhanded⟩ := h.switch nobody pick switch
      exact ⟨V, s, h', fun hp => hown ((pipeSem_congr hhanded.pipes).mp hp), hs, .idle⟩
  | @resched sched => exact ⟨V, s, h.resched sched, hown, hs, .idle⟩

/-- A run is a run of the counting semaphore. -/
theorem SemSteps.moves (run : SemSteps prog a start l m) (h : Sound start.kernel V)
    (hs : V a = some s) (hown : ¬PipeSem start.kernel a) :
    ∃ V' s', Sound m.kernel V' ∧ ¬PipeSem m.kernel a ∧ V' a = some s' ∧ Moves s l s' := by
  induction run with
  | nil => exact ⟨V, s, h, hown, hs, .nil⟩
  | snoc _ step stays ih =>
      obtain ⟨V₁, s₁, h₁, hown₁, hs₁, moves⟩ := ih
      obtain ⟨V₂, s₂, h₂, hown₂, hs₂, move⟩ := step.semMove h₁ hs₁ hown₁ stays
      exact ⟨V₂, s₂, h₂, hown₂, hs₂, moves.snoc move⟩

/-- `sem_alloc` makes a semaphore without waiting processes that no pipe owns. -/
theorem IpcStep.semCreated (h : Sound m.kernel V)
    (step : IpcStep prog m (some ⟨p, .semAlloc v, .value a⟩) m') (ha : a ≠ 0) :
    ∃ V', Sound m'.kernel V' ∧ ¬PipeSem m'.kernel a ∧ V' a = some ⟨v, []⟩ := by
  cases step with
  | call caller acts promise step runs =>
      rcases h.exec caller promise step with ⟨-, -, V', h', effect⟩ | ⟨hr, -⟩
      · rcases h.sems.alloc v with heq | ⟨hfresh, sems, heq, hrep⟩
        · rw [ipcExec, heq] at step
          cases step
          exact absurd rfl ha
        · rw [ipcExec, heq] at step
          cases step
          obtain rfl := hrep.unique h'.sems
          refine ⟨_, h', fun hp => ?_, Function.update_self ..⟩
          obtain ⟨t, ht⟩ := h.held hp
          rw [hfresh] at ht
          cases ht
      · exact absurd hr runs

theorem SemSteps.trans (run₁ : SemSteps prog a m₀ l₁ m₁) (run₂ : SemSteps prog a m₁ l₂ m₂) :
    SemSteps prog a m₀ (l₁ ++ l₂) m₂ := by
  induction run₂ with
  | nil =>
      rw [List.append_nil]
      exact run₁
  | snoc _ step stays ih =>
      rw [← List.append_assoc]
      exact ih.snoc step stays

end Runs

section Example

variable {σ : Type} {act : Acts σ} {prog : Program σ} {start m m' : Ipc σ}
  {l l' : List (Event ℕ)}

/-- The moves one after the other, with the events on a semaphore that stays open. -/
def semPlay (act : Acts σ) (a : ℕ) : List IpcMove → Ipc σ → Option (List (Event ℕ) × Ipc σ)
  | [], m => some ([], m)
  | move :: moves, m => do
      let (e, m₁) ← ipcMove act m move
      if semGetById m₁.kernel a = none then none
      else
        let (l, m₂) ← semPlay act a moves m₁
        some (semEvents a m.kernel e ++ l, m₂)

theorem SemSteps.play (run : SemSteps prog a start l m)
    (hact : ∀ p s c next, act p s c = some next → prog p s c next) {moves : List IpcMove}
    (h : semPlay act a moves m = some (l', m')) : SemSteps prog a start (l ++ l') m' := by
  induction moves generalizing m l l' with
  | nil =>
      cases h
      rw [List.append_nil]
      exact run
  | cons move moves ih =>
      obtain ⟨⟨e, m₁⟩, hmove, h⟩ := Option.bind_eq_some_iff.mp h
      dsimp only at h
      split at h
      · cases h
      · rename_i hopen
        obtain ⟨⟨l₁, m₂⟩, hrest, hlast⟩ := Option.bind_eq_some_iff.mp h
        cases hlast
        rw [← List.append_assoc]
        exact ih (run.snoc (ipcMove_step hact hmove) hopen) hrest

/-- Processes that make any calls. -/
def freeProgram : Program Unit := fun _ _ _ next => next = fun _ => ()

def freeAct : Acts Unit := fun _ _ _ => some fun _ => ()

theorem freeAct_program (p : ℕ) (s : Unit) (c : IpcCall) (next : Reply → Unit)
    (h : freeAct p s c = some next) : freeProgram p s c next := (Option.some.inj h).symm

end Example

end SoKernel
