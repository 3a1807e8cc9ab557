import SoKernel.Ipc.PipeFifo
import SoKernel.Ipc.Runner
import SoKernel.Userland.StdinLoops

/-!
# The right side of a pipeline

One process runs `cat`, `wc` or `filter` with the reading end of a pipe as its standard input, and
any number of others write to the pipe and open and close its ends, in any order. When the process
leaves its loop, no writing end is open and it has handled everything that was ever written, in
order, however the reads have cut it.
-/

namespace SoKernel.Userland

open Function (update)
open Format

section Model

/-- What a process does: the one that reads its standard input, or any other. -/
inductive StdinJob where
  | other (job : PipeJob)
  /-- At the start of a turn of `pipe_read`, or asleep in it, with the bytes of this read. -/
  | reading (s : StdinLocals) (bytesRead : ℕ) (bytes : List UInt8) (asleep : Bool)
  | returned (s : StdinLocals)

/-- `sys_read` has returned `n`. -/
def StdinLoop.afterRead (L : StdinLoop) (s : StdinLocals) (n : ℤ) (buffer : List UInt8) : StdinJob :=
  if 0 < n then .reading (L.body buffer s) 0 [] false else .returned (L.after s)

/-- The process after a turn of `pipe_read`. -/
def StdinLoop.next (L : StdinLoop) (s : StdinLocals) (bytesRead : ℕ) (bytes : List UInt8) :
    Reply → StdinJob
  | .moved b =>
      if bytesRead + 1 < L.size then .reading s (bytesRead + 1) (bytes ++ [b]) false
      else L.afterRead s (intOf (bytesRead + 1)) (bytes ++ [b])
  | .again => .reading s bytesRead bytes false
  | .blocked => .reading s bytesRead bytes true
  | _ => L.afterRead s (intOf bytesRead) bytes

theorem StdinLoop.next_moved (L : StdinLoop) (s : StdinLocals) (n : ℕ) (bytes : List UInt8) (b : UInt8) :
    L.next s n bytes (.moved b) =
      if n + 1 < L.size then .reading s (n + 1) (bytes ++ [b]) false
      else L.afterRead s (intOf (n + 1)) (bytes ++ [b]) := rfl

/-- The others do anything but read from the pipe in the entry. -/
inductive StdinActs (L : StdinLoop) (i : ℕ) : StdinJob → IpcCall → (Reply → StdinJob) → Prop
  | other {job job' : PipeJob} {c : IpcCall} {next : Reply → PipeJob} (enters : Enters job job')
      (acts : jobActs job' c next) (apart : ∀ n, c ≠ .readTurn i n) :
      StdinActs L i (.other job) c fun r => .other (next r)
  | read {s : StdinLocals} {bytesRead : ℕ} {bytes : List UInt8} {asleep : Bool} :
      StdinActs L i (.reading s bytesRead bytes asleep) (.readTurn i bytesRead)
        (L.next s bytesRead bytes)

def stdinProgram (L : StdinLoop) (i : ℕ) : Program StdinJob := fun _ => StdinActs L i

/-- The size of a read is positive and an `int`. -/
structure StdinLoop.Fits (L : StdinLoop) : Prop where
  pos : 0 < L.size
  int : L.size < 2 ^ 31

theorem catProcessEntry_fits : catProcessEntry.Fits := ⟨by decide, by decide⟩

theorem wcProcessEntry_fits : wcProcessEntry.Fits := ⟨by decide, by decide⟩

theorem filterProcessEntry_fits : filterProcessEntry.Fits := ⟨by decide, by decide⟩

end Model

section Runs

variable {L : StdinLoop} {m m' : Ipc StdinJob} {V V' : Sems} {e : Option IpcEvent}
  {t : List IpcEvent} {i id q : ℕ}

/-- The bytes that were taken from the pipe, or are in it, are those that were put into it. -/
structure HandsOn (i id : ℕ) (t : List IpcEvent) (k : Kernel) : Prop where
  old : id < k.nextPipeId
  ring : (k.pipes i).used = true → (k.pipes i).id = id →
    (k.pipes i).Ring ∧ removed i t ++ (k.pipes i).contents = inserted i t

theorem HandsOn.step {σ : Type} {prog : Program σ} {m m' : Ipc σ} (h : HandsOn i id t m.kernel)
    (hsound : Sound m.kernel V) (hsound' : Sound m'.kernel V') (hi : i < maxPipes)
    (effect : StepEffect prog m V m' V' e) : HandsOn i id (t ++ e.toList) m'.kernel := by
  refine ⟨h.old.trans_le effect.nextPipeId_le, fun hused hid => ?_⟩
  obtain ⟨v', hv'⟩ := hsound'.shows hi hused
  rw [hv'.pipe] at hid ⊢
  obtain ⟨v, hv, hsame, hmove⟩ := effect.view_before hsound hi hv' (hid ▸ h.old)
  have hbefore := h.ring (hv.pipe ▸ hv.used) (by rw [hv.pipe, hsame, hid])
  rw [hv.pipe] at hbefore
  obtain ⟨hring, hlog⟩ := hbefore
  cases hmove with
  | call step =>
      obtain ⟨hring', hstep⟩ := step.fifo hring
      refine ⟨hring', ?_⟩
      rw [removed_append, inserted_append, List.append_assoc, ← hstep, ← List.append_assoc, hlog]
  | switch same =>
      rw [same, Option.toList_none, List.append_nil]
      exact ⟨hring, hlog⟩

theorem HandsOn.created {σ : Type} {prog : Program σ} {m m' : Ipc σ} {p : ℕ}
    (hsound : Sound m.kernel V) (hsound' : Sound m'.kernel V') (hi : i < maxPipes)
    (effect : StepEffect prog m V m' V' (some ⟨p, .pipeCreate, .value id⟩)) (hid : id ≠ 0) :
    HandsOn i id [] m'.kernel := by
  obtain ⟨hold, hnew⟩ := effect.created hsound hi hid
  refine ⟨hold, fun hused hidi => ?_⟩
  obtain ⟨v, hv⟩ := hsound'.shows hi hused
  rw [hv.pipe] at hidi ⊢
  obtain ⟨hread, hwrite, hcount⟩ := (hnew v hv hidi).1.contents
  have hring : v.pipe.Ring :=
    { count_le := hcount ▸ Nat.zero_le _
      readPos_lt := hread ▸ (by decide)
      writePos_eq := by rw [hread, hwrite, hcount]; rfl }
  exact ⟨hring, by rw [Pipe.contents, hcount]; rfl⟩

/-- What the process has handled and the bytes of its present read are those that were taken from
the pipe. -/
inductive Handles (L : StdinLoop) (i : ℕ) (t : List IpcEvent) : StdinJob → Prop
  | reading {chunks : List (List UInt8)} {bytesRead : ℕ} {bytes : List UInt8} {asleep : Bool}
      (counted : bytes.length = bytesRead) (room : bytesRead < L.size)
      (taken : removed i t = chunks.flatten ++ bytes) :
      Handles L i t (.reading (L.reads chunks) bytesRead bytes asleep)
  | returned (s : StdinLocals) : Handles L i t (.returned s)

/-- The processes in a run. -/
structure Stages (L : StdinLoop) (i q : ℕ) (t : List IpcEvent) (m : Ipc StdinJob) : Prop where
  others : ∀ p, p ≠ q → ∃ job, m.thread p = .other job
  here : Handles L i t (m.thread q)

/-- A read that has brought something is handled; the others end the loop. -/
theorem afterRead_handles (hfits : L.Fits) {chunks : List (List UInt8)} {n : ℕ}
    {bytes : List UInt8} (room : n ≤ L.size) (taken : removed i t = chunks.flatten ++ bytes) :
    Handles L i t (L.afterRead (L.reads chunks) (intOf n) bytes) := by
  have hint := hfits.int
  rw [StdinLoop.afterRead, intOf_of_lt (by omega)]
  by_cases hpos : (0 : ℤ) < n
  · rw [if_pos hpos, ← StdinLoop.reads_append]
    exact .reading rfl hfits.pos (by rw [taken]; simp)
  · rw [if_neg hpos]
    exact .returned _

/-- One turn of the read. -/
theorem Handles.turn (hfits : L.Fits) {chunks : List (List UInt8)} {n : ℕ} {bytes : List UInt8}
    (counted : bytes.length = n) (room : n < L.size)
    (taken : removed i t = chunks.flatten ++ bytes) (r : Reply) :
    Handles L i (t ++ [⟨q, .readTurn i n, r⟩]) (L.next (L.reads chunks) n bytes r) := by
  have happend : ∀ r : Reply, removed i (t ++ [⟨q, .readTurn i n, r⟩]) =
      removed i t ++ (IpcEvent.removed i ⟨q, .readTurn i n, r⟩).toList := fun r => removed_append t _
  cases r with
  | moved b =>
      have hmore : removed i (t ++ [⟨q, .readTurn i n, .moved b⟩]) =
          chunks.flatten ++ (bytes ++ [b]) := by
        rw [happend, taken, List.append_assoc]
        simp [IpcEvent.removed]
      have hlength : (bytes ++ [b]).length = n + 1 := by simp [counted]
      rw [StdinLoop.next_moved]
      by_cases hroom : n + 1 < L.size
      · rw [if_pos hroom]
        exact .reading hlength hroom hmore
      · rw [if_neg hroom]
        exact afterRead_handles hfits (Nat.succ_le_of_lt room) hmore
  | again => exact .reading counted room (by rw [happend, taken]; simp [IpcEvent.removed])
  | blocked => exact .reading counted room (by rw [happend, taken]; simp [IpcEvent.removed])
  | ended =>
      exact afterRead_handles hfits room.le (by rw [happend, taken]; simp [IpcEvent.removed])
  | value v =>
      exact afterRead_handles hfits room.le (by rw [happend, taken]; simp [IpcEvent.removed])

theorem removed_other {p : ℕ} {c : IpcCall} (h : ∀ n, c ≠ .readTurn i n) (r : Reply) :
    IpcEvent.removed i ⟨p, c, r⟩ = none := by
  unfold IpcEvent.removed
  split
  · rename_i j n b heq
    have hc : c = .readTurn j n := (IpcEvent.mk.inj heq).2.1
    rw [if_neg]
    rintro rfl
    exact h n hc
  · rfl

/-- A call keeps the stages, whoever makes it. -/
theorem Stages.call (h : Stages L i q t m) (hfits : L.Fits) {c : IpcCall} {next : Reply → StdinJob}
    (acts : StdinActs L i (m.thread m.kernel.current) c next) (r : Reply)
    (thread : m'.thread = update m.thread m.kernel.current (next r)) :
    Stages L i q (t ++ [⟨m.kernel.current, c, r⟩]) m' := by
  by_cases hcur : m.kernel.current = q
  · have hhere := h.here
    rw [hcur] at acts thread ⊢
    refine ⟨fun p hp => ?_, ?_⟩
    · rw [thread, Function.update_of_ne hp]
      exact h.others p hp
    · rw [thread, Function.update_self]
      generalize m.thread q = job at acts hhere
      cases hhere with
      | reading counted room taken =>
          cases acts
          exact Handles.turn hfits counted room taken r
      | returned s => cases acts
  · obtain ⟨job, hjob⟩ := h.others _ hcur
    rw [hjob] at acts
    cases acts with
    | @other _ job' _ next enters acts apart =>
        refine ⟨fun p hp => ?_, ?_⟩
        · by_cases hpc : p = m.kernel.current
          · exact ⟨next r, by rw [thread, hpc, Function.update_self]⟩
          · rw [thread, Function.update_of_ne hpc]
            exact h.others p hp
        · have hsame : removed i (t ++ [⟨m.kernel.current, c, r⟩]) = removed i t := by
            rw [← Option.toList_some, removed_append, removed_other apart, Option.toList_none,
              List.append_nil]
          rw [thread, Function.update_of_ne (Ne.symm hcur)]
          have hhere := h.here
          generalize m.thread q = job at hhere
          cases hhere with
          | reading counted room taken => exact .reading counted room (hsame.trans taken)
          | returned s => exact .returned s

theorem Stages.step (h : Stages L i q t m) (hfits : L.Fits)
    (effect : StepEffect (stdinProgram L i) m V m' V' e) : Stages L i q (t ++ e.toList) m' := by
  cases effect with
  | call next _ acts _ _ _ thread => exact h.call hfits acts _ thread
  | block next _ _ _ acts _ _ _ _ _ _ _ _ thread => exact h.call hfits acts _ thread
  | switch _ _ thread =>
      rw [Option.toList_none, List.append_nil]
      exact ⟨by rw [thread]; exact h.others, by rw [thread]; exact h.here⟩

/-- The read after which the loop ends has brought nothing, as there was nothing in the pipe and no
writing end open. -/
theorem Stages.returns (h : Stages L i q t m) (hfits : L.Fits) (hsound : Sound m.kernel V)
    (live : (m.kernel.pipes i).used = true) (step : IpcStep (stdinProgram L i) m e m')
    (hbefore : ∀ s, m.thread q ≠ .returned s) {s : StdinLocals} (hafter : m'.thread q = .returned s) :
    (m.kernel.pipes i).count = 0 ∧ (m.kernel.pipes i).writers = 0 ∧
      ∃ chunks, removed i t = chunks.flatten ∧ s = L.after (L.reads chunks) := by
  have hcall : ∀ c next r, StdinActs L i (m.thread m.kernel.current) c next →
      m'.thread = update m.thread m.kernel.current (next r) →
      ∃ (chunks : List (List UInt8)) (n : ℕ) (bytes : List UInt8), c = .readTurn i n ∧
        bytes.length = n ∧ n < L.size ∧ removed i t = chunks.flatten ++ bytes ∧
        L.next (L.reads chunks) n bytes r = .returned s := by
    intro c next r acts thread
    have hcur : m.kernel.current = q := by
      by_contra hne
      rw [thread, Function.update_of_ne (Ne.symm hne)] at hafter
      exact hbefore s hafter
    have hhere := h.here
    rw [thread, hcur, Function.update_self] at hafter
    rw [hcur] at acts
    generalize m.thread q = job at acts hhere hbefore
    cases hhere with
    | reading counted room taken =>
        cases acts
        exact ⟨_, _, _, rfl, counted, room, taken, hafter⟩
    | returned s => exact absurd rfl (hbefore s)
  have hint := hfits.int
  -- A read that has brought something does not end the loop.
  have hends : ∀ (chunks : List (List UInt8)) (n : ℕ) (bytes : List UInt8), n ≤ L.size →
      L.afterRead (L.reads chunks) (intOf n) bytes = .returned s →
      n = 0 ∧ s = L.after (L.reads chunks) := by
    intro chunks n bytes room hret
    rw [StdinLoop.afterRead, intOf_of_lt (by omega)] at hret
    split at hret
    · cases hret
    · exact ⟨by omega, (StdinJob.returned.inj hret).symm⟩
  obtain ⟨V', -, effect⟩ := step.effect hsound
  cases effect with
  | call next _ acts _ _ effect thread =>
      obtain ⟨chunks, n, bytes, rfl, counted, room, taken, hret⟩ := hcall _ next _ acts thread
      cases effect with
      | readTurn _ effect =>
          cases effect with
          | gone unused => exact absurd live (by rw [unused]; decide)
          | ended _ empty why =>
              obtain ⟨rfl, hs⟩ := hends chunks n bytes room.le hret
              obtain rfl := List.length_eq_zero_iff.mp counted
              exact ⟨empty, why.resolve_right (lt_irrefl 0), chunks,
                taken.trans (List.append_nil _), hs⟩
          | moved =>
              rw [StdinLoop.next_moved] at hret
              split at hret
              · cases hret
              · exact absurd (hends chunks (n + 1) _ (Nat.succ_le_of_lt room) hret).1 n.succ_ne_zero
          | again => cases hret
  | block next _ _ _ acts _ _ _ _ _ _ _ _ thread =>
      obtain ⟨chunks, n, bytes, rfl, counted, room, taken, hret⟩ := hcall _ next _ acts thread
      cases hret
  | switch _ _ thread =>
      rw [thread] at hafter
      exact absurd hafter (hbefore s)

/-- The run of a pipeline, from the creation of the pipe to the end of the process that reads from
it. -/
structure ReadsToEnd (L : StdinLoop) (i q : ℕ) (t : List IpcEvent) (m m' : Ipc StdinJob)
    (s : StdinLocals) : Prop where
  run : ∃ (start m₁ m₂ : Ipc StdinJob) (t₁ : List IpcEvent) (p id : ℕ), Quiet start.kernel ∧
    IpcRun (stdinProgram L i) start t₁ m₁ ∧
    IpcStep (stdinProgram L i) m₁ (some ⟨p, .pipeCreate, .value id⟩) m₂ ∧ id ≠ 0 ∧
    m₂.thread q = .reading stdinStart 0 [] false ∧
    (∀ p, p ≠ q → ∃ job, m₂.thread p = .other job) ∧
    IpcRun (stdinProgram L i) m₂ t m ∧ (m.kernel.pipes i).used = true ∧
    (m.kernel.pipes i).id = id
  entry : i < maxPipes
  before : ∀ s, m.thread q ≠ .returned s
  step : ∃ e, IpcStep (stdinProgram L i) m e m'
  after : m'.thread q = .returned s

/-- The process ends after it has handled all that was written, and only when no writing end is
open. -/
theorem ReadsToEnd.handles_all {s : StdinLocals} (h : ReadsToEnd L i q t m m' s) (hfits : L.Fits) :
    (m.kernel.pipes i).writers = 0 ∧
      ∃ chunks, chunks.flatten = inserted i t ∧ s = L.after (L.reads chunks) := by
  obtain ⟨start, m₁, m₂, t₁, p, id, hquiet, run₁, create, hpos, hq, hothers, run₂, live, hid⟩ := h.run
  obtain ⟨e, step⟩ := h.step
  obtain ⟨V₁, hsound₁, -⟩ := run₁.invariant (I := fun _ _ _ => True) hquiet.sound trivial
    fun _ _ _ _ _ _ _ _ _ _ => trivial
  obtain ⟨V₂, hsound₂, heffect⟩ := create.effect hsound₁
  have hstages : Stages L i q [] m₂ := by
    refine ⟨hothers, ?_⟩
    rw [hq]
    exact @Handles.reading L i [] [] 0 [] false rfl hfits.pos rfl
  obtain ⟨V₃, hsound₃, hands, stages⟩ := run₂.invariant
    (I := fun t m _ => HandsOn i id t m.kernel ∧ Stages L i q t m) hsound₂
    ⟨HandsOn.created hsound₁ hsound₂ h.entry heffect hpos, hstages⟩
    fun _ _ _ _ _ _ hs h' effect hs' =>
      ⟨h'.1.step hs hs' h.entry effect, h'.2.step hfits effect⟩
  obtain ⟨hcount, hwriters, chunks, hremoved, hs⟩ :=
    stages.returns hfits hsound₃ live step h.before h.after
  refine ⟨hwriters, chunks, ?_, hs⟩
  rw [← hremoved, ← (hands.ring live hid).2, Pipe.contents, hcount, RingBuffer.contents_zero,
    List.append_nil]

end Runs

section Runner

/-- A choice among the calls, in which the others read from no pipe. -/
def stdinAct (L : StdinLoop) (i : ℕ) : Acts StdinJob
  | _, .other _, .readTurn _ _ => none
  | p, .other job, c => (pipeAct p job c).map fun next r => .other (next r)
  | _, .reading s n bytes _, .readTurn j n' =>
      if j = i ∧ n' = n then some (L.next s n bytes) else none
  | _, _, _ => none

theorem stdinAct_program (L : StdinLoop) (i p : ℕ) (job : StdinJob) (c : IpcCall)
    (next : Reply → StdinJob) (h : stdinAct L i p job c = some next) :
    stdinProgram L i p job c next := by
  cases job with
  | other job =>
      have hother : ∀ acts : Option (Reply → PipeJob), acts = pipeAct p job c →
          acts.map (fun next r => StdinJob.other (next r)) = some next →
          (∀ n, c ≠ .readTurn i n) → stdinProgram L i p (.other job) c next := by
        rintro acts rfl hmap apart
        obtain ⟨next', hnext, rfl⟩ := Option.map_eq_some_iff.mp hmap
        obtain ⟨job', enters, acts⟩ := pipeAct_program p job c next' hnext
        exact .other enters acts apart
      cases c with
      | readTurn j n => cases h
      | _ => exact hother _ rfl h fun n => IpcCall.noConfusion
  | reading s n bytes asleep =>
      cases c with
      | readTurn j n' =>
          simp only [stdinAct] at h
          split at h
          · rename_i hsame
            obtain ⟨rfl, rfl⟩ := hsame
            cases h
            exact .read
          · cases h
      | _ => cases h
  | returned s =>
      cases c with
      | _ => cases h

def StdinJob.result : StdinJob → Option StdinLocals
  | .returned s => some s
  | _ => none

/-- The child has not begun, and nobody else does anything. -/
def stdinBegin (q : ℕ) : StdinJob :=
  if q = 64 then .reading stdinStart 0 [] false else .other (.idle 0 [])

/-- The shell makes a pipe for its child, writes `ab` and a newline to it and closes the writing end
before the child reads, and the child ends with the local variables. -/
def StdinLoop.ReadsShown (L : StdinLoop) (s : StdinLocals) : Prop :=
  ((shellWith [(64, 32768)]).bind fun k =>
    (ipcMove (stdinAct L 0) ⟨k, stdinBegin⟩ (.call .pipeCreate)).bind fun x₂ =>
      (ipcPlay (stdinAct L 0) (fun _ _ _ => true) [.call (.pipeOpen 1 false),
        .call (.pipeOpen 1 true), .call (.writeTurn 0 97), .call (.writeTurn 0 98),
        .call (.writeTurn 0 10), .call (.pipeClose 1 true), .switch 64, .call (.readTurn 0 0),
        .call (.readTurn 0 1), .call (.readTurn 0 2), .call (.readTurn 0 3)] x₂.2).bind fun x₃ =>
        (ipcMove (stdinAct L 0) x₃.2 (.call (.readTurn 0 0))).map fun x₄ =>
          decide (x₂.1 = some ⟨48, .pipeCreate, .value 1⟩ ∧ (x₃.2.kernel.pipes 0).used = true ∧
            (x₃.2.kernel.pipes 0).id = 1 ∧ inserted 0 x₃.1 = [97, 98, 10] ∧
            (x₃.2.thread 64).result = none ∧ (x₄.2.thread 64).result = some s)) = some true

instance (L : StdinLoop) (s : StdinLocals) : Decidable (L.ReadsShown s) :=
  inferInstanceAs (Decidable (_ = _))

theorem StdinLoop.ReadsShown.reads {L : StdinLoop} {s : StdinLocals} (h : L.ReadsShown s) :
    ∃ t m m', ReadsToEnd L 0 64 t m m' s ∧ inserted 0 t = [97, 98, 10] := by
  obtain ⟨k, hstart, h₁⟩ := Option.bind_eq_some_iff.mp h
  obtain ⟨⟨e, m₂⟩, hcreate, h₂⟩ := Option.bind_eq_some_iff.mp h₁
  obtain ⟨⟨t, m⟩, hplay, h₃⟩ := Option.bind_eq_some_iff.mp h₂
  obtain ⟨⟨e', m'⟩, hlast, h₄⟩ := Option.map_eq_some_iff.mp h₃
  obtain ⟨he, hused, hid, hinserted, hbefore, hafter⟩ := of_decide_eq_true h₄
  dsimp only at he
  subst he
  obtain ⟨-, -, hquiet, -⟩ := shellWith_reachable hstart
  have create := ipcMove_step (stdinAct_program L 0) hcreate
  have hthread : ∀ {p : ℕ} {c : IpcCall} {r : Reply},
      IpcStep (stdinProgram L 0) ⟨k, stdinBegin⟩ (some ⟨p, c, r⟩) m₂ → p ≠ 64 →
      m₂.thread 64 = stdinBegin 64 ∧ ∀ q, q ≠ 64 → ∃ job, m₂.thread q = .other job := by
    intro p c r step hp
    have hmakes : ∀ next : Reply → StdinJob, StdinActs L 0 (stdinBegin p) c next →
        ∃ job, next r = .other job := by
      intro next acts
      rw [stdinBegin, if_neg hp] at acts
      cases acts
      exact ⟨_, rfl⟩
    have hupdate : ∃ job, m₂.thread = update stdinBegin p (.other job) := by
      cases step with
      | call _ acts =>
          obtain ⟨job, hjob⟩ := hmakes _ acts
          exact ⟨job, congrArg (update stdinBegin _) hjob⟩
      | block _ acts =>
          obtain ⟨job, hjob⟩ := hmakes _ acts
          exact ⟨job, congrArg (update stdinBegin _) hjob⟩
    obtain ⟨job, hjob⟩ := hupdate
    rw [hjob]
    refine ⟨Function.update_of_ne (Ne.symm hp) _ _, fun q hq => ?_⟩
    by_cases hqp : q = p
    · exact ⟨job, by rw [hqp, Function.update_self]⟩
    · exact ⟨.idle 0 [], by rw [Function.update_of_ne hqp, stdinBegin, if_neg hq]⟩
  obtain ⟨hreader, hothers⟩ := hthread create (by decide)
  have hresult : ∀ job : StdinJob, job.result = some s → job = .returned s := by
    intro job hjob
    cases job with
    | returned s' => rw [StdinJob.result, Option.some.injEq] at hjob; rw [hjob]
    | _ => cases hjob
  refine ⟨t, m, m', ?_, hinserted⟩
  exact
    { run := ⟨_, _, m₂, [], 48, 1, hquiet, .nil, create, one_ne_zero, hreader, hothers,
        ipcPlay_run (stdinAct_program L 0) hplay, hused, hid⟩
      entry := by decide
      before := fun s' hs' => by rw [hs'] at hbefore; cases hbefore
      step := ⟨e', ipcMove_step (stdinAct_program L 0) hlast⟩
      after := hresult _ hafter }

end Runner

section Entries

variable {m m' : Ipc StdinJob} {t : List IpcEvent} {i q : ℕ} {s : StdinLocals}

/-- `filter` prints what was written without the vowels, in order. -/
theorem filter_prints_what_passes (h : ReadsToEnd filterProcessEntry i q t m m' s) :
    (m.kernel.pipes i).writers = 0 ∧ s.printed = ((inserted i t).map charOf).filter passes := by
  obtain ⟨hwriters, chunks, hchunks, rfl⟩ := h.handles_all filterProcessEntry_fits
  refine ⟨hwriters, ?_⟩
  rw [← hchunks]
  exact congrArg StdinLocals.printed (filter_reads chunks)

theorem filter_prints_what_passes_shell :
    ∃ t m m' s, ReadsToEnd filterProcessEntry 0 64 t m m' s ∧ inserted 0 t = [97, 98, 10] ∧
      s.printed = ['b', '\n'] := by
  have hshown : filterProcessEntry.ReadsShown ⟨0, ['b', '\n']⟩ := by decide +kernel
  obtain ⟨t, m, m', hreads, hinserted⟩ := hshown.reads
  refine ⟨t, m, m', _, hreads, hinserted, ?_⟩
  rw [(filter_prints_what_passes hreads).2, hinserted]
  decide

/-- `wc` prints the number of newlines that were written, as an `int`. -/
theorem wc_prints_line_count (h : ReadsToEnd wcProcessEntry i q t m m' s) :
    (m.kernel.pipes i).writers = 0 ∧
      s.printed = intText (signed 32 (((inserted i t).map charOf).count '\n')) ++ ['\n'] ∧
      (((inserted i t).map charOf).count '\n' < 2 ^ 31 →
        s.printed = appendUnsignedToStr (((inserted i t).map charOf).count '\n') ++ ['\n']) := by
  obtain ⟨hwriters, chunks, hchunks, rfl⟩ := h.handles_all wcProcessEntry_fits
  have hprinted := wc_after_reads chunks
  rw [hchunks] at hprinted
  refine ⟨hwriters, hprinted, fun hsmall => ?_⟩
  rw [hprinted, intText_of_lt hsmall]

theorem wc_prints_line_count_shell :
    ∃ t m m' s, ReadsToEnd wcProcessEntry 0 64 t m m' s ∧ inserted 0 t = [97, 98, 10] ∧
      s.printed = ['1', '\n'] := by
  have hshown : wcProcessEntry.ReadsShown ⟨1, ['1', '\n']⟩ := by decide +kernel
  obtain ⟨t, m, m', hreads, hinserted⟩ := hshown.reads
  refine ⟨t, m, m', _, hreads, hinserted, ?_⟩
  rw [(wc_prints_line_count hreads).2.1, hinserted]
  decide

/-- `cat` prints nothing but what was written, in order, and prints all of it exactly if no null
character was written. -/
theorem cat_prints_all_iff (h : ReadsToEnd catProcessEntry i q t m m' s) :
    (m.kernel.pipes i).writers = 0 ∧ s.printed.Sublist ((inserted i t).map charOf) ∧
      (s.printed = (inserted i t).map charOf ↔ 0 ∉ inserted i t) := by
  obtain ⟨hwriters, chunks, hchunks, rfl⟩ := h.handles_all catProcessEntry_fits
  have hprinted : (catProcessEntry.after (catProcessEntry.reads chunks)).printed =
      (chunks.flatMap fun chunk => chunk.takeWhile fun b => b ≠ 0).map charOf :=
    congrArg StdinLocals.printed (cat_reads chunks)
  have hsub := cat_reads_sublist chunks
  rw [hprinted, ← hchunks]
  refine ⟨hwriters, hsub.map charOf, ?_⟩
  rw [← cat_reads_whole_iff]
  constructor
  · intro hmap
    have hlength := congrArg List.length hmap
    rw [List.length_map, List.length_map] at hlength
    exact hsub.eq_of_length hlength
  · exact fun hall => congrArg (List.map charOf) hall

theorem cat_prints_all_iff_shell :
    ∃ t m m' s, ReadsToEnd catProcessEntry 0 64 t m m' s ∧ inserted 0 t = [97, 98, 10] ∧
      s.printed = ['a', 'b', '\n'] := by
  have hshown : catProcessEntry.ReadsShown ⟨0, ['a', 'b', '\n']⟩ := by decide +kernel
  obtain ⟨t, m, m', hreads, hinserted⟩ := hshown.reads
  refine ⟨t, m, m', _, hreads, hinserted, ?_⟩
  rw [(cat_prints_all_iff hreads).2.2.mpr (by rw [hinserted]; decide), hinserted]
  decide

end Entries

end SoKernel.Userland
