import SoKernel.Ipc.PipeCalls
import SoKernel.Ipc.Runner

/-!
# The semaphores of a pipe do not follow its buffer

`sem_items` and `sem_spaces` start as the numbers of bytes and of free places. But a byte is
written without a token of `sem_spaces` and read without a token of `sem_items`, so that the
first byte that is written ends the agreement.
-/

namespace SoKernel

open Function (update)

section Tokens

/-- The values of the two semaphores of a pipe are the numbers of bytes and of free places. -/
def Mirrors (k : Kernel) (i : ℕ) : Prop :=
  (∃ j, semGetById k (k.pipes i).semItems = some j ∧ (k.semaphores j).value = (k.pipes i).count) ∧
    ∃ j, semGetById k (k.pipes i).semSpaces = some j ∧
      (k.semaphores j).value = (pipeBufferSize : ℤ) - (k.pipes i).count

/-- Nobody is inside `pipe_read` or `pipe_write` on the pipe. -/
def NobodyInside (i : ℕ) (m : Ipc PipeJob) : Prop :=
  ∀ q, match m.thread q with
    | .idle _ _ => True
    | .reading j _ _ _ _ => j ≠ i
    | .writing j _ _ _ _ => j ≠ i

/-- No end of the pipe is closed. -/
def NoClose (i : ℕ) (m : Ipc PipeJob) (e : Option IpcEvent) : Prop :=
  ∀ p isWriter r, e ≠ some ⟨p, .pipeClose (m.kernel.pipes i).id isWriter, r⟩

/-- A turn of `pipe_write` on the pipe finds no reading end or a full buffer. -/
def WritesNothing (i : ℕ) (m : Ipc PipeJob) (e : Option IpcEvent) : Prop :=
  ∀ p b r, e = some ⟨p, .writeTurn i b, r⟩ →
    (m.kernel.pipes i).readers = 0 ∨ ¬(m.kernel.pipes i).count < pipeBufferSize

variable {k : Kernel} {V : Sems} {i : ℕ} {v : PipeView}

theorem Shows.mirrors_iff (h : Represents k V) (hv : Shows k V i v) :
    Mirrors k i ↔ v.items.value = v.pipe.count ∧
      v.spaces.value = (pipeBufferSize : ℤ) - v.pipe.count := by
  have hvalue : ∀ a s n, V a = some s →
      ((∃ j, semGetById k a = some j ∧ (k.semaphores j).value = n) ↔ s.value = n) := by
    intro a s n hs
    obtain ⟨j, hj⟩ := h.get hs
    constructor
    · rintro ⟨j', hfound, hval⟩
      obtain rfl : j = j' := Option.some_inj.mp (hj.found.symm.trans hfound)
      exact hj.value.symm.trans hval
    · intro hval
      exact ⟨j, hj.found, hj.value.trans hval⟩
  rw [Mirrors, hv.pipe, hvalue _ _ _ hv.items, hvalue _ _ _ hv.spaces]

end Tokens

section Runs

variable {m m' : Ipc PipeJob} {V V' : Sems} {e : Option IpcEvent} {i id : ℕ}

/-- The semaphores are as `pipe_create` has made them, and the buffer is empty. -/
structure Pristine (i id : ℕ) (m : Ipc PipeJob) (V : Sems) : Prop where
  old : id < m.kernel.nextPipeId
  count : ∀ v, Shows m.kernel V i v → v.pipe.id = id → v.pipe.count = 0
  items : ∀ v, Shows m.kernel V i v → v.pipe.id = id → v.items.value = 0
  spaces : ∀ v, Shows m.kernel V i v → v.pipe.id = id → v.spaces.value = pipeBufferSize

theorem PipeStep.pristine {q : ℕ} {c : IpcCall} {r : Reply} {v v' : PipeView}
    (step : PipeStep i v q c r v') (hcount : v.pipe.count = 0) (hitems : v.items.value = 0)
    (hspaces : v.spaces.value = pipeBufferSize) (hclose : ∀ isWriter, c ≠ .pipeClose v.pipe.id isWriter)
    (hwrite : ∀ b, c = .writeTurn i b → v.pipe.readers = 0 ∨ ¬v.pipe.count < pipeBufferSize) :
    v'.pipe.count = 0 ∧ v'.items.value = 0 ∧ v'.spaces.value = pipeBufferSize := by
  cases step with
  | other => exact ⟨hcount, hitems, hspaces⟩
  | @opened id isWriter =>
      refine ⟨?_, hitems, hspaces⟩
      cases isWriter <;> exact hcount
  | @closed isWriter => exact absurd rfl (hclose isWriter)
  | readEnded => exact ⟨hcount, hitems, hspaces⟩
  | readMoved pos =>
      rw [hcount] at pos
      exact absurd pos (lt_irrefl _)
  | readAgain _ token =>
      rw [hitems] at token
      exact absurd token (lt_irrefl _)
  | readBlocked => exact ⟨hcount, hitems, hspaces⟩
  | writeEnded => exact ⟨hcount, hitems, hspaces⟩
  | @writeMoved b readers room =>
      rcases hwrite b rfl with h | h
      · exact absurd h readers
      · exact absurd room h
  | writeAgain full =>
      rw [hcount] at full
      exact absurd (by decide) full
  | writeBlocked => exact ⟨hcount, hitems, hspaces⟩

theorem Pristine.step (h : Pristine i id m V) (hsound : Sound m.kernel V) (hi : i < maxPipes)
    (effect : StepEffect pipeProgram m V m' V' e) (hclose : NoClose i m e)
    (hwrite : WritesNothing i m e) : Pristine i id m' V' := by
  have hall : ∀ v', Shows m'.kernel V' i v' → v'.pipe.id = id →
      v'.pipe.count = 0 ∧ v'.items.value = 0 ∧ v'.spaces.value = pipeBufferSize := by
    intro v' hv' hid
    obtain ⟨v, hv, hsame, hmove⟩ := effect.view_before hsound hi hv' (hid ▸ h.old)
    have hid' := hsame.trans hid
    cases hmove with
    | call step =>
        refine step.pristine (h.count v hv hid') (h.items v hv hid') (h.spaces v hv hid') ?_ ?_
        · rintro isWriter rfl
          exact hclose _ isWriter _ (by rw [hv.pipe])
        · rintro b rfl
          rw [← hv.pipe]
          exact hwrite _ b _ rfl
    | switch same =>
        rw [same]
        exact ⟨h.count v hv hid', h.items v hv hid', h.spaces v hv hid'⟩
  exact ⟨h.old.trans_le effect.nextPipeId_le, fun v hv hid => (hall v hv hid).1,
    fun v hv hid => (hall v hv hid).2.1, fun v hv hid => (hall v hv hid).2.2⟩

theorem StepEffect.pristine {p : ℕ} (hsound : Sound m.kernel V) (hi : i < maxPipes)
    (effect : StepEffect pipeProgram m V m' V' (some ⟨p, .pipeCreate, .value id⟩)) (hid : id ≠ 0) :
    Pristine i id m' V' := by
  obtain ⟨hold, hnew⟩ := effect.created hsound hi hid
  have hall : ∀ v, Shows m'.kernel V' i v → v.pipe.id = id →
      v.pipe.count = 0 ∧ v.items.value = 0 ∧ v.spaces.value = pipeBufferSize := by
    intro v hv hidv
    obtain ⟨hfresh, -, -⟩ := hnew v hv hidv
    obtain ⟨hitems, hspaces⟩ := hfresh.empty
    rw [hv.items, Option.some_inj] at hitems
    rw [hv.spaces, Option.some_inj] at hspaces
    rw [hitems, hspaces]
    exact ⟨hfresh.contents.2.2, rfl, rfl⟩
  exact ⟨hold, fun v hv hid => (hall v hv hid).1, fun v hv hid => (hall v hv hid).2.1,
    fun v hv hid => (hall v hv hid).2.2⟩

/-- In every run of reads and writes on a new pipe in which no turn of `pipe_write` has a reader
and a free place, the semaphores follow the buffer. The first turn that has both ends this. -/
theorem tokens_follow_buffer {start m₁ m₂ m₃ : Ipc PipeJob} {t₁ t₂ : List IpcEvent} {p : ℕ}
    (hquiet : Quiet start.kernel) (run₁ : IpcRun pipeProgram start t₁ m₁)
    (create : IpcStep pipeProgram m₁ (some ⟨p, .pipeCreate, .value id⟩) m₂)
    (run₂ : IpcRunVia pipeProgram (fun m e _ => NoClose i m e ∧ WritesNothing i m e) m₂ t₂ m₃)
    (hi : i < maxPipes) (live : (m₃.kernel.pipes i).used = true) (hid : (m₃.kernel.pipes i).id = id) :
    Mirrors m₃.kernel i ∧
      ∀ q b r m₄, IpcStep pipeProgram m₃ (some ⟨q, .writeTurn i b, r⟩) m₄ →
        (Mirrors m₄.kernel i ↔ WritesNothing i m₃ (some ⟨q, .writeTurn i b, r⟩)) := by
  obtain ⟨V₁, hsound₁, -⟩ := run₁.invariant (I := fun _ _ _ => True) hquiet.sound trivial
    fun _ _ _ _ _ _ _ _ _ _ => trivial
  obtain ⟨V₂, hsound₂, heffect⟩ := create.effect hsound₁
  have hpos : id ≠ 0 := by
    obtain ⟨V, hsound, -⟩ := run₂.invariant (I := fun _ _ _ => True) hsound₂ trivial
      fun _ _ _ _ _ _ _ _ _ _ _ _ => trivial
    rw [← hid]
    exact (hsound.tables.bound i hi live).1.ne'
  obtain ⟨V₃, hsound₃, hpristine⟩ := run₂.invariant (I := fun _ m V => Pristine i id m V) hsound₂
    (heffect.pristine hsound₁ hi hpos)
    fun _ _ _ _ _ _ hs h _ effect hok _ => h.step hs hi effect hok.1 hok.2
  obtain ⟨v, hv⟩ := hsound₃.shows hi live
  rw [hv.pipe] at hid
  have hcount := hpristine.count v hv hid
  have hitems := hpristine.items v hv hid
  have hspaces := hpristine.spaces v hv hid
  refine ⟨(hv.mirrors_iff hsound₃.sems).mpr ?_, fun q b r m₄ step => ?_⟩
  · rw [hcount, hitems, hspaces]
    exact ⟨rfl, (sub_zero _).symm⟩
  · obtain ⟨V₄, hsound₄, heffect₄⟩ := step.effect hsound₃
    rcases heffect₄.pipeMove hsound₃ hi hv with ⟨-, c, r', he, isWriter, hc, -⟩ | ⟨v', hv', hmove⟩
    · have := (IpcEvent.mk.inj (Option.some_inj.mp he)).2.1
      rw [hc] at this
      cases this
    · rw [hv'.mirrors_iff hsound₄.sems]
      cases hmove with
      | call step =>
          constructor
          · rintro ⟨-, hvalue⟩ p' b' r' he
            rw [hv.pipe]
            by_contra hboth
            rw [not_or, not_not] at hboth
            cases step with
            | other _ noWrite => exact noWrite b rfl
            | writeEnded why => exact hboth.1 why
            | writeMoved =>
                simp only [Pipe.push] at hvalue
                rw [hspaces, hcount] at hvalue
                omega
            | writeAgain full => exact full hboth.2
            | writeBlocked full => exact full hboth.2
          · intro hnothing
            obtain ⟨hc, hi', hs⟩ := step.pristine hcount hitems hspaces (fun _ he => by cases he)
              fun b' he => by
                have := hnothing _ b _ rfl
                rwa [hv.pipe] at this
            rw [hc, hi', hs]
            exact ⟨rfl, (sub_zero _).symm⟩

/-- A process that makes no call stays where it is. -/
theorem IpcRun.thread_of_no_call {start : Ipc PipeJob} {t : List IpcEvent} {q : ℕ}
    (run : IpcRun pipeProgram start t m) (hq : ∀ e ∈ t, e.caller ≠ q) :
    m.thread q = start.thread q := by
  induction run with
  | nil => rfl
  | @snoc t m₁ e m₂ _ step ih =>
      rw [← ih fun e' he' => hq e' (List.mem_append_left _ he')]
      have hlast : ∀ e', e = some e' → e'.caller ≠ q := by
        rintro e' rfl
        exact hq e' (List.mem_append_right _ (List.mem_singleton.mpr rfl))
      cases step with
      | call => exact Function.update_of_ne (hlast _ rfl).symm _ _
      | block => exact Function.update_of_ne (hlast _ rfl).symm _ _
      | switch => rfl
      | resched => rfl

/-- The theorem at a run: the shell writes to a new pipe without readers, reads from it without
writers, and opens both ends. The byte that it writes then is the first that passes. -/
theorem tokens_follow_buffer_opened :
    ∃ start m₂ m₃ m₄ : Ipc PipeJob, ∃ t₂ r, shellWith [] = some start.kernel ∧
      IpcStep pipeProgram start (some ⟨48, .pipeCreate, .value 1⟩) m₂ ∧
      IpcRunVia pipeProgram (fun m e _ => NoClose 0 m e ∧ WritesNothing 0 m e) m₂ t₂ m₃ ∧
      t₂.map IpcEvent.call =
        [.writeTurn 0 65, .pipeOpen 1 false, .readTurn 0 0, .pipeOpen 1 true] ∧
      Mirrors m₃.kernel 0 ∧ IpcStep pipeProgram m₃ (some ⟨48, .writeTurn 0 66, r⟩) m₄ ∧
      ¬Mirrors m₄.kernel 0 := by
  let check : Ipc PipeJob → Option IpcEvent → Ipc PipeJob → Bool
    | _, some ⟨_, .pipeClose _ _, _⟩, _ => false
    | m, some ⟨_, .writeTurn i _, _⟩, _ => decide ((m.kernel.pipes i).readers = 0)
    | _, _, _ => true
  have hcheck : ∀ m e m', check m e m' = true → NoClose 0 m e ∧ WritesNothing 0 m e := by
    intro m e m' h
    refine ⟨?_, ?_⟩
    · rintro p isWriter r rfl
      cases h
    · rintro p b r rfl
      exact Or.inl (of_decide_eq_true h)
  have hcalc : ((shellWith []).bind fun k =>
      (ipcMove pipeAct ⟨k, fun _ => .idle 0 []⟩ (.call .pipeCreate)).bind fun x₂ =>
        (ipcPlay pipeAct check [.call (.writeTurn 0 65), .call (.pipeOpen 1 false),
          .call (.readTurn 0 0), .call (.pipeOpen 1 true)] x₂.2).bind fun x₃ =>
          (ipcMove pipeAct x₃.2 (.call (.writeTurn 0 66))).map fun x₄ =>
            decide ((x₂.1 = some ⟨48, .pipeCreate, .value 1⟩ ∧ x₃.1.map IpcEvent.call =
              [.writeTurn 0 65, .pipeOpen 1 false, .readTurn 0 0, .pipeOpen 1 true]) ∧
              ((x₃.2.kernel.pipes 0).used = true ∧ (x₃.2.kernel.pipes 0).id = 1 ∧
                (x₃.2.kernel.pipes 0).readers = 1 ∧ (x₃.2.kernel.pipes 0).count = 0) ∧
              x₄.1.map (fun e => (e.caller, e.call)) = some (48, .writeTurn 0 66))) =
        some true := by
    decide +kernel
  obtain ⟨k, hstart, h₁⟩ := Option.bind_eq_some_iff.mp hcalc
  obtain ⟨⟨e, m₂⟩, hcreate, h₂⟩ := Option.bind_eq_some_iff.mp h₁
  obtain ⟨⟨t₂, m₃⟩, hplay, h₃⟩ := Option.bind_eq_some_iff.mp h₂
  obtain ⟨⟨e', m₄⟩, hwrite, h₄⟩ := Option.map_eq_some_iff.mp h₃
  obtain ⟨⟨he, hcalls⟩, ⟨hused, hid, hreaders, hcount⟩, hlast⟩ := of_decide_eq_true h₄
  dsimp only at he
  subst he
  obtain ⟨⟨p, c, r⟩, rfl, hevent⟩ := Option.map_eq_some_iff.mp hlast
  obtain ⟨rfl, rfl⟩ := Prod.mk.inj hevent
  obtain ⟨-, -, hquiet, -⟩ := shellWith_reachable hstart
  have create := ipcMove_step pipeAct_program hcreate
  have run := ipcPlay_via pipeAct_program hcheck hplay
  have write := ipcMove_step pipeAct_program hwrite
  obtain ⟨hmirrors, hnext⟩ := tokens_follow_buffer hquiet .nil create run (by decide) hused hid
  refine ⟨_, m₂, m₃, m₄, t₂, r, hstart, create, run, hcalls, hmirrors, write, fun hstill => ?_⟩
  rcases (hnext _ _ _ _ write).mp hstill _ _ _ rfl with hnone | hfull
  · rw [hreaders] at hnone
    cases hnone
  · exact hfull (by rw [hcount]; decide)

/-- The shell writes two bytes into a pipe and reads them again: the pipe is empty and nobody is
inside, but `sem_items` has two tokens and `sem_spaces` two more than there are places. -/
theorem tokens_drift_from_buffer :
    ∃ start m₂ m₃ : Ipc PipeJob, ∃ t₂, shellWith [] = some start.kernel ∧
      IpcStep pipeProgram start (some ⟨48, .pipeCreate, .value 1⟩) m₂ ∧
      IpcRun pipeProgram m₂ t₂ m₃ ∧ (∀ p isWriter r, (⟨p, .pipeClose 1 isWriter, r⟩ : IpcEvent) ∉ t₂) ∧
      (m₃.kernel.pipes 0).used = true ∧ (m₃.kernel.pipes 0).id = 1 ∧ NobodyInside 0 m₃ ∧
      (m₃.kernel.pipes 0).count = 0 ∧ ¬Mirrors m₃.kernel 0 ∧
      ∃ j l, semGetById m₃.kernel (m₃.kernel.pipes 0).semItems = some j ∧
        (m₃.kernel.semaphores j).value = 2 ∧
        semGetById m₃.kernel (m₃.kernel.pipes 0).semSpaces = some l ∧
        (m₃.kernel.semaphores l).value = 4098 := by
  have hcalc : ((shellWith []).bind fun k =>
      (ipcMove pipeAct ⟨k, fun _ => .idle 0 []⟩ (.call .pipeCreate)).bind fun x₂ =>
        (ipcPlay pipeAct (fun _ _ _ => true) [.call (.pipeOpen 1 false), .call (.pipeOpen 1 true),
          .call (.writeTurn 0 65), .call (.writeTurn 0 66), .call (.readTurn 0 0),
          .call (.readTurn 0 0)] x₂.2).map
          fun x₃ => decide ((x₂.1 = some ⟨48, .pipeCreate, .value 1⟩ ∧
            (∀ e ∈ x₃.1, e.caller = 48 ∧ e.call ≠ .pipeClose 1 true ∧ e.call ≠ .pipeClose 1 false)) ∧
            (match x₃.2.thread 48 with | .idle _ _ => true | _ => false) = true ∧
            ((x₃.2.kernel.pipes 0).used = true ∧ (x₃.2.kernel.pipes 0).id = 1 ∧
              (x₃.2.kernel.pipes 0).count = 0) ∧
            semGetById x₃.2.kernel (x₃.2.kernel.pipes 0).semItems = some 1 ∧
            (x₃.2.kernel.semaphores 1).value = 2 ∧
            semGetById x₃.2.kernel (x₃.2.kernel.pipes 0).semSpaces = some 2 ∧
            (x₃.2.kernel.semaphores 2).value = 4098)) = some true := by
    decide +kernel
  obtain ⟨k, hstart, h₁⟩ := Option.bind_eq_some_iff.mp hcalc
  obtain ⟨⟨e, m₂⟩, hcreate, h₂⟩ := Option.bind_eq_some_iff.mp h₁
  obtain ⟨⟨t₂, m₃⟩, hplay, h₃⟩ := Option.map_eq_some_iff.mp h₂
  obtain ⟨⟨he, hevents⟩, hidle, ⟨hused, hid, hcount⟩, hfound, hvalue, hfound', hvalue'⟩ :=
    of_decide_eq_true h₃
  dsimp only at he
  subst he
  have create := ipcMove_step pipeAct_program hcreate
  have run := ipcPlay_run pipeAct_program hplay
  refine ⟨_, m₂, m₃, t₂, hstart, create, run, ?_, hused, hid, fun q => ?_, hcount, ?_, 1, 2, hfound,
    hvalue, hfound', hvalue'⟩
  · rintro p isWriter r hmem
    obtain ⟨-, hw, hr⟩ := hevents _ hmem
    cases isWriter
    · exact hr rfl
    · exact hw rfl
  · by_cases hq : q = 48
    · rw [hq]
      revert hidle
      cases m₃.thread 48 <;> simp
    · rw [run.thread_of_no_call fun e hm => (hevents e hm).1 ▸ Ne.symm hq]
      have hbefore : m₂.thread q = .idle 0 [] :=
        (IpcRun.nil.snoc create).thread_of_no_call fun e hm => by
          rw [List.nil_append, Option.toList_some, List.mem_singleton] at hm
          rw [hm]
          exact Ne.symm hq
      rw [hbefore]
      trivial
  · rintro ⟨⟨j, hj, hval⟩, -⟩
    obtain rfl : 1 = j := Option.some_inj.mp (hfound.symm.trans hj)
    rw [hvalue, hcount] at hval
    cases hval

end Runs
end SoKernel
