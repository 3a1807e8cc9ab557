import SoKernel.Ipc.PipeCalls
import SoKernel.Lib.RingBuffer

/-!
# A pipe hands on its bytes in order

The bytes that readers have taken from a pipe, followed by the contents of its buffer, are
the bytes that writers have put into it, whatever the order in which any number of readers
and writers run.
-/

namespace SoKernel

open Function (update)

section Logs

/-- The byte that a call has put into the pipe. -/
def IpcEvent.inserted (i : ℕ) : IpcEvent → Option UInt8
  | ⟨_, .writeTurn j _, .moved b⟩ => if j = i then some b else none
  | _ => none

/-- The byte that a call has taken from the pipe. -/
def IpcEvent.removed (i : ℕ) : IpcEvent → Option UInt8
  | ⟨_, .readTurn j _, .moved b⟩ => if j = i then some b else none
  | _ => none

def inserted (i : ℕ) (trace : List IpcEvent) : List UInt8 := trace.filterMap (IpcEvent.inserted i)

def removed (i : ℕ) (trace : List IpcEvent) : List UInt8 := trace.filterMap (IpcEvent.removed i)

theorem inserted_append {i : ℕ} (t : List IpcEvent) (e : IpcEvent) :
    inserted i (t ++ (some e).toList) = inserted i t ++ (e.inserted i).toList := by
  rw [inserted, List.filterMap_append, Option.toList_some]
  cases h : e.inserted i <;> simp [h, inserted]

theorem removed_append {i : ℕ} (t : List IpcEvent) (e : IpcEvent) :
    removed i (t ++ (some e).toList) = removed i t ++ (e.removed i).toList := by
  rw [removed, List.filterMap_append, Option.toList_some]
  cases h : e.removed i <;> simp [h, removed]

/-- The bytes in the buffer, from the next one to be read. -/
def Pipe.contents (p : Pipe) : List UInt8 :=
  RingBuffer.contents p.buffer pipeBufferSize p.readPos p.count

/-- The positions and the count of a pipe agree. -/
structure Pipe.Ring (p : Pipe) : Prop where
  count_le : p.count ≤ pipeBufferSize
  readPos_lt : p.readPos < pipeBufferSize
  writePos_eq : p.writePos = (p.readPos + p.count) % pipeBufferSize

theorem Pipe.Ring.push {q : Pipe} (h : q.Ring) (hroom : q.count < pipeBufferSize) (b : UInt8) :
    (q.push b).Ring ∧ (q.push b).contents = q.contents ++ [b] := by
  refine ⟨⟨hroom, h.readPos_lt, ?_⟩, ?_⟩
  · simp only [Pipe.push]
    rw [h.writePos_eq, Nat.mod_add_mod, Nat.add_assoc]
  · simp only [Pipe.contents, Pipe.push]
    rw [h.writePos_eq]
    exact RingBuffer.contents_push hroom

theorem Pipe.Ring.shift {q : Pipe} (h : q.Ring) (hpos : 0 < q.count) :
    q.shift.Ring ∧ q.contents = q.buffer q.readPos :: q.shift.contents := by
  obtain ⟨n, hn⟩ := Nat.exists_eq_add_of_lt hpos
  rw [Nat.zero_add] at hn
  refine ⟨⟨?_, ?_, ?_⟩, ?_⟩
  · exact (Nat.sub_le _ _).trans h.count_le
  · exact Nat.mod_lt _ (by decide)
  · simp only [Pipe.shift]
    rw [h.writePos_eq, Nat.mod_add_mod, hn, Nat.add_sub_cancel]
    congr 1
    omega
  · simp only [Pipe.contents, Pipe.shift]
    rw [hn, Nat.add_sub_cancel]
    exact RingBuffer.contents_shift h.readPos_lt

/-- Opening and closing ends does not touch the buffer. -/
theorem Pipe.ends_contents (q : Pipe) (isWriter : Bool) (h : q.Ring) :
    ((q.opened isWriter).Ring ∧ (q.opened isWriter).contents = q.contents) ∧
      (q.closed isWriter).Ring ∧ (q.closed isWriter).contents = q.contents := by
  refine ⟨?_, ?_⟩
  · cases isWriter <;> exact ⟨⟨h.count_le, h.readPos_lt, h.writePos_eq⟩, rfl⟩
  · unfold Pipe.closed
    cases isWriter
    · simp only [Bool.false_eq_true, if_false]
      split
      · exact ⟨⟨h.count_le, h.readPos_lt, h.writePos_eq⟩, rfl⟩
      · exact ⟨h, rfl⟩
    · simp only [if_true]
      split
      · exact ⟨⟨h.count_le, h.readPos_lt, h.writePos_eq⟩, rfl⟩
      · exact ⟨h, rfl⟩

/-- Every call on a pipe takes from the front and adds at the end. -/
theorem PipeStep.fifo {i p : ℕ} {c : IpcCall} {r : Reply} {v v' : PipeView}
    (step : PipeStep i v p c r v') (h : v.pipe.Ring) :
    v'.pipe.Ring ∧
      v.pipe.contents ++ (IpcEvent.inserted i ⟨p, c, r⟩).toList =
        (IpcEvent.removed i ⟨p, c, r⟩).toList ++ v'.pipe.contents := by
  have hquiet : ∀ w : PipeView, w.pipe.Ring → w.pipe.contents = v.pipe.contents →
      IpcEvent.inserted i ⟨p, c, r⟩ = none → IpcEvent.removed i ⟨p, c, r⟩ = none → w.pipe.Ring ∧
        v.pipe.contents ++ (IpcEvent.inserted i ⟨p, c, r⟩).toList =
          (IpcEvent.removed i ⟨p, c, r⟩).toList ++ w.pipe.contents := by
    intro w hring hsame hins hrem
    rw [hins, hrem, hsame]
    exact ⟨hring, List.append_nil _⟩
  cases step with
  | other noRead noWrite =>
      refine hquiet v h rfl ?_ ?_
      · unfold IpcEvent.inserted
        split
        · rename_i j b b' he
          have hc : c = .writeTurn j b := (IpcEvent.mk.inj he).2.1
          rw [if_neg]
          rintro rfl
          exact noWrite b hc
        · rfl
      · unfold IpcEvent.removed
        split
        · rename_i j n b he
          have hc : c = .readTurn j n := (IpcEvent.mk.inj he).2.1
          rw [if_neg]
          rintro rfl
          exact noRead n hc
        · rfl
  | @opened id isWriter r =>
      obtain ⟨⟨hring, hsame⟩, -⟩ := v.pipe.ends_contents isWriter h
      exact hquiet _ hring hsame rfl rfl
  | @closed isWriter r live =>
      obtain ⟨-, hring, hsame⟩ := v.pipe.ends_contents isWriter h
      exact hquiet _ hring hsame rfl rfl
  | readEnded => exact hquiet v h rfl rfl rfl
  | readMoved pos =>
      obtain ⟨hring, hcontents⟩ := h.shift pos
      refine ⟨hring, ?_⟩
      simp only [IpcEvent.inserted, IpcEvent.removed, if_true, Option.toList_none, Option.toList_some,
        List.append_nil, List.singleton_append]
      exact hcontents
  | readAgain => exact hquiet _ h rfl rfl rfl
  | readBlocked => exact hquiet _ h rfl rfl rfl
  | writeEnded => exact hquiet v h rfl rfl rfl
  | @writeMoved b readers room =>
      obtain ⟨hring, hcontents⟩ := h.push room b
      refine ⟨hring, ?_⟩
      simp only [IpcEvent.inserted, IpcEvent.removed, if_true, Option.toList_none, Option.toList_some,
        List.nil_append]
      exact hcontents.symm
  | writeAgain => exact hquiet _ h rfl rfl rfl
  | writeBlocked => exact hquiet _ h rfl rfl rfl

end Logs

section Results

/-- The counters of the calls are the numbers of bytes that they have moved. -/
def JobCounts : PipeJob → Prop
  | .idle result bytes => result = bytes.length
  | .reading _ count n bytes _ => bytes.length = n ∧ n < count ∧ count < 2 ^ 31
  | .writing _ buffer n bytes _ => bytes.length = n ∧ n < buffer.length ∧ buffer.length < 2 ^ 31

theorem Enters.counts {j j' : PipeJob} (h : Enters j j') (hj : JobCounts j) : JobCounts j' := by
  cases h with
  | stay => exact hj
  | read _ _ _ _ pos int => exact ⟨rfl, pos, int⟩
  | write _ _ _ _ pos int => exact ⟨rfl, pos, int⟩

theorem jobActs_counts {j : PipeJob} {c : IpcCall} {next : Reply → PipeJob} (h : jobActs j c next)
    (hj : JobCounts j) (r : Reply) : JobCounts (next r) := by
  cases j with
  | idle result bytes =>
      obtain ⟨-, rfl⟩ := h
      exact hj
  | reading i count n bytes asleep =>
      obtain ⟨-, rfl⟩ := h
      obtain ⟨hlen, hlt, hint⟩ := hj
      cases r with
      | moved b =>
          rw [readNext_moved]
          split
          · rename_i hmore
            exact ⟨by rw [List.length_append, hlen]; rfl, hmore, hint⟩
          · simp only [JobCounts]
            rw [intOf_of_lt (by omega), List.length_append, hlen]
            rfl
      | again => exact ⟨hlen, hlt, hint⟩
      | blocked => exact ⟨hlen, hlt, hint⟩
      | ended =>
          have hn : intOf n = n := intOf_of_lt (by omega)
          exact hn.trans (by rw [hlen])
      | value =>
          have hn : intOf n = n := intOf_of_lt (by omega)
          exact hn.trans (by rw [hlen])
  | writing i buffer n bytes asleep =>
      obtain ⟨_, -, -, rfl⟩ := h
      obtain ⟨hlen, hlt, hint⟩ := hj
      cases r with
      | moved b =>
          rw [writeNext_moved]
          split
          · rename_i hmore
            exact ⟨by rw [List.length_append, hlen]; rfl, hmore, hint⟩
          · simp only [JobCounts]
            rw [intOf_of_lt (by omega), List.length_append, hlen]
            rfl
      | again => exact ⟨hlen, hlt, hint⟩
      | blocked => exact ⟨hlen, hlt, hint⟩
      | ended =>
          have hn : intOf n = n := intOf_of_lt (by omega)
          exact hn.trans (by rw [hlen])
      | value =>
          have hn : intOf n = n := intOf_of_lt (by omega)
          exact hn.trans (by rw [hlen])

/-- A step changes the job of its caller only. -/
theorem StepEffect.jobs {m m' : Ipc PipeJob} {V V' : Sems} {e : Option IpcEvent}
    (effect : StepEffect pipeProgram m V m' V' e) (h : ∀ q, JobCounts (m.thread q)) :
    ∀ q, JobCounts (m'.thread q) := by
  have hcall : ∀ c next r, pipeProgram m.kernel.current (m.thread m.kernel.current) c next →
      m'.thread = update m.thread m.kernel.current (next r) → ∀ q, JobCounts (m'.thread q) := by
    rintro c next r ⟨j, henters, hacts⟩ hthread q
    rw [hthread]
    by_cases hq : q = m.kernel.current
    · rw [hq, Function.update_self]
      exact jobActs_counts hacts (henters.counts (h _)) r
    · rw [Function.update_of_ne hq]
      exact h q
  cases effect with
  | call next _ acts _ _ _ thread => exact hcall _ next _ acts thread
  | block next _ _ _ acts _ _ _ _ _ _ _ _ thread => exact hcall _ next _ acts thread
  | switch _ _ thread =>
      rw [thread]
      exact h

end Results

section Runs

variable {m m' : Ipc PipeJob} {V V' : Sems} {e : Option IpcEvent} {t : List IpcEvent} {i id : ℕ}

/-- The pipe with the given identifier, as long as it is in the entry of the table. -/
structure Lossless (i id : ℕ) (t : List IpcEvent) (m : Ipc PipeJob) : Prop where
  old : id < m.kernel.nextPipeId
  ring : (m.kernel.pipes i).used = true → (m.kernel.pipes i).id = id →
    (m.kernel.pipes i).Ring ∧ removed i t ++ (m.kernel.pipes i).contents = inserted i t

theorem Lossless.step (h : Lossless i id t m) (hsound : Sound m.kernel V)
    (hsound' : Sound m'.kernel V') (hi : i < maxPipes) (effect : StepEffect pipeProgram m V m' V' e) : Lossless i id (t ++ e.toList) m' := by
  refine ⟨h.old.trans_le effect.nextPipeId_le, fun hused hid => ?_⟩
  obtain ⟨v', hv'⟩ := hsound'.shows hi hused
  rw [hv'.pipe] at hid ⊢
  obtain ⟨v, hv, hsame, hmove⟩ := effect.view_before hsound hi hv' (hid ▸ h.old)
  have hbefore := h.ring (hv.pipe ▸ hv.used) (by rw [hv.pipe, hsame, hid])
  rw [hv.pipe] at hbefore
  obtain ⟨hring, hlog⟩ := hbefore
  cases hmove with
  | call step =>
      obtain ⟨hring', hstep⟩ := step.fifo hring
      refine ⟨hring', ?_⟩
      rw [removed_append, inserted_append, List.append_assoc, ← hstep, ← List.append_assoc, hlog]
  | switch same =>
      rw [same, Option.toList_none, List.append_nil]
      exact ⟨hring, hlog⟩

/-- `pipe_create` returns a new empty pipe. -/
theorem StepEffect.lossless {p : ℕ} (hsound : Sound m.kernel V) (hsound' : Sound m'.kernel V')
    (hi : i < maxPipes)
    (effect : StepEffect pipeProgram m V m' V' (some ⟨p, .pipeCreate, .value id⟩)) (hid : id ≠ 0) :
    Lossless i id [] m' := by
  obtain ⟨hold, hnew⟩ := effect.created hsound hi hid
  refine ⟨hold, fun hused hidi => ?_⟩
  obtain ⟨v, hv⟩ := hsound'.shows hi hused
  rw [hv.pipe] at hidi ⊢
  obtain ⟨hread, hwrite, hcount⟩ := (hnew v hv hidi).1.contents
  refine ⟨⟨?_, ?_, ?_⟩, ?_⟩
  · rw [hcount]
    exact Nat.zero_le _
  · rw [hread]
    decide
  · rw [hread, hwrite, hcount]
    rfl
  · rw [Pipe.contents, hcount]
    rfl

/-- The job of a process that makes a turn of `pipe_read`. -/
theorem jobActs_read {j : PipeJob} {n : ℕ} {next : Reply → PipeJob}
    (h : jobActs j (.readTurn i n) next) :
    ∃ count bytes asleep, j = .reading i count n bytes asleep ∧ next = readNext i count n bytes := by
  cases j with
  | idle result bytes => exact h.1.elim
  | reading i' count n' bytes asleep =>
      obtain ⟨hc, rfl⟩ := h
      obtain ⟨rfl, rfl⟩ := IpcCall.readTurn.inj hc
      exact ⟨count, bytes, asleep, rfl, rfl⟩
  | writing i' buffer n' bytes asleep =>
      obtain ⟨b, -, hc, -⟩ := h
      cases hc

/-- `pipe_read` returns `0` on a pipe in use only without data and without writers. -/
theorem IpcStep.read_zero {q n : ℕ} {r : Reply} {bytes : List UInt8}
    (step : IpcStep pipeProgram m (some ⟨q, .readTurn i n, r⟩) m') (hsound : Sound m.kernel V)
    (hjobs : ∀ q, JobCounts (m.thread q)) (live : (m.kernel.pipes i).used = true)
    (hq : m'.thread q = .idle 0 bytes) :
    (m.kernel.pipes i).count = 0 ∧ (m.kernel.pipes i).writers = 0 := by
  obtain ⟨V', -, effect⟩ := step.effect hsound
  cases effect with
  | call next _ acts _ _ effect thread =>
      obtain ⟨j, henters, hacts⟩ := acts
      obtain ⟨count, bytes', asleep, rfl, rfl⟩ := jobActs_read hacts
      obtain ⟨-, hlt, hint⟩ := henters.counts (hjobs _)
      rw [thread, Function.update_self] at hq
      cases effect with
      | readTurn _ effect =>
          cases effect with
          | gone unused =>
              rw [live] at unused
              cases unused
          | ended _ empty why =>
              have hn : intOf n = 0 := (PipeJob.idle.inj hq).1
              rw [intOf_of_lt (by omega)] at hn
              exact ⟨empty, why.resolve_right (by omega)⟩
          | moved =>
              rw [readNext_moved] at hq
              split at hq
              · cases hq
              · have hn : intOf (n + 1) = 0 := (PipeJob.idle.inj hq).1
                rw [intOf_of_lt (by omega)] at hn
                omega
          | again => cases hq
  | block next _ _ _ acts _ _ _ _ _ _ _ _ thread =>
      obtain ⟨j, -, hacts⟩ := acts
      obtain ⟨count, bytes', asleep, -, rfl⟩ := jobActs_read hacts
      rw [thread, Function.update_self] at hq
      cases hq

/-- For every pipe, from its creation on, as long as it is in use: the bytes that were removed,
followed by the contents of the buffer, are the bytes that were inserted; the count and the
positions agree; a call returns the number of bytes that it has moved; and `pipe_read` returns
`0` only if everything was removed and no writing end is open. -/
theorem pipe_is_lossless_fifo {start m₁ m₂ m₃ : Ipc PipeJob} {t₁ t₂ : List IpcEvent} {p : ℕ}
    (hquiet : Quiet start.kernel) (hidle : ∀ q, start.thread q = .idle 0 [])
    (run₁ : IpcRun pipeProgram start t₁ m₁)
    (create : IpcStep pipeProgram m₁ (some ⟨p, .pipeCreate, .value id⟩) m₂)
    (run₂ : IpcRun pipeProgram m₂ t₂ m₃) (hi : i < maxPipes)
    (live : (m₃.kernel.pipes i).used = true) (hid : (m₃.kernel.pipes i).id = id) :
    removed i t₂ ++ (m₃.kernel.pipes i).contents = inserted i t₂ ∧
      (removed i t₂).length + (m₃.kernel.pipes i).count = (inserted i t₂).length ∧
      (m₃.kernel.pipes i).count ≤ pipeBufferSize ∧
      (m₃.kernel.pipes i).writePos =
        ((m₃.kernel.pipes i).readPos + (m₃.kernel.pipes i).count) % pipeBufferSize ∧
      (∀ q result bytes, m₃.thread q = .idle result bytes → result = bytes.length) ∧
      ∀ q n r bytes m₄, IpcStep pipeProgram m₃ (some ⟨q, .readTurn i n, r⟩) m₄ →
        m₄.thread q = .idle 0 bytes →
        (m₃.kernel.pipes i).writers = 0 ∧ removed i t₂ = inserted i t₂ := by
  obtain ⟨V₁, hsound₁, hjobs₁⟩ := run₁.invariant (I := fun _ m _ => ∀ q, JobCounts (m.thread q))
    hquiet.sound (fun q => by rw [hidle q]; rfl) fun _ _ _ _ _ _ _ h effect _ => effect.jobs h
  obtain ⟨V₂, hsound₂, heffect⟩ := create.effect hsound₁
  have hpos : id ≠ 0 := by
    obtain ⟨V, hsound, -⟩ := run₂.invariant (I := fun _ _ _ => True) hsound₂ trivial
      fun _ _ _ _ _ _ _ _ _ _ => trivial
    rw [← hid]
    exact (hsound.tables.bound i hi live).1.ne'
  obtain ⟨V₃, hsound₃, hlossless, hjobs⟩ := run₂.invariant
    (I := fun t m _ => Lossless i id t m ∧ ∀ q, JobCounts (m.thread q)) hsound₂
    ⟨heffect.lossless hsound₁ hsound₂ hi hpos, heffect.jobs hjobs₁⟩
    fun _ _ _ _ _ _ hs h effect hs' => ⟨h.1.step hs hs' hi effect, effect.jobs h.2⟩
  obtain ⟨hring, hlog⟩ := hlossless.ring live hid
  refine ⟨hlog, ?_, hring.count_le, hring.writePos_eq, fun q result bytes hq => ?_,
    fun q n r bytes m₄ hstep hq => ?_⟩
  · rw [← hlog, List.length_append, Pipe.contents, RingBuffer.length_contents]
  · have hcounts := hjobs q
    rw [hq] at hcounts
    exact hcounts
  · obtain ⟨hcount, hwriters⟩ := hstep.read_zero hsound₃ hjobs live hq
    refine ⟨hwriters, ?_⟩
    rw [← hlog, Pipe.contents, hcount, RingBuffer.contents_zero, List.append_nil]

/-- The theorem at a run: the shell makes a pipe, opens both of its ends, writes two bytes and
reads one of them. -/
theorem pipe_is_lossless_fifo_shell :
    ∃ start m₁ m₂ m₃ : Ipc PipeJob, ∃ t₁ t₂,
      bootSystem 16 8192 48 12288 1 = some start.kernel ∧ IpcRun pipeProgram start t₁ m₁ ∧
      IpcStep pipeProgram m₁ (some ⟨48, .pipeCreate, .value 1⟩) m₂ ∧
      IpcRun pipeProgram m₂ t₂ m₃ ∧ (m₃.kernel.pipes 0).count = 1 ∧
      removed 0 t₂ = [65] ∧ inserted 0 t₂ = [65, 66] ∧
      removed 0 t₂ ++ (m₃.kernel.pipes 0).contents = inserted 0 t₂ := by
  have hcalc : (shellPipe.bind fun x₄ =>
      (ipcExec x₄.1 (.writeTurn 0 65)).bind fun x₅ => (ipcExec x₅.1 (.writeTurn 0 66)).bind fun x₆ =>
        (ipcExec x₆.1 (.readTurn 0 0)).map fun x₇ =>
          decide ((x₄.1.current = 48 ∧ x₄.1.idleP = 16) ∧
            (x₅.2 = .moved 65 ∧ x₅.1.current = 48 ∧ x₅.1.idleP = 16) ∧
            (x₆.2 = .moved 66 ∧ x₆.1.current = 48 ∧ x₆.1.idleP = 16) ∧
            (x₇.2 = .moved 65 ∧ (x₇.1.pipes 0).used = true ∧ (x₇.1.pipes 0).id = 1 ∧
              (x₇.1.pipes 0).count = 1))) = some true := by
    decide +kernel
  obtain ⟨⟨k₄, r₄⟩, hshell, h₅⟩ := Option.bind_eq_some_iff.mp hcalc
  obtain ⟨⟨k₅, r₅⟩, hexec₅, h₆⟩ := Option.bind_eq_some_iff.mp h₅
  obtain ⟨⟨k₆, r₆⟩, hexec₆, h₇⟩ := Option.bind_eq_some_iff.mp h₆
  obtain ⟨⟨k₇, r₇⟩, hexec₇, h₈⟩ := Option.map_eq_some_iff.mp h₇
  obtain ⟨⟨hcur₄, hidle₄⟩, ⟨hr₅, hcur₅, hidle₅⟩, ⟨hr₆, hcur₆, hidle₆⟩, ⟨hr₇, hused, hid, hcount⟩⟩ :=
    of_decide_eq_true h₈
  dsimp only at hr₅ hr₆ hr₇
  subst hr₅ hr₆ hr₇
  have hcaller : ∀ k : Kernel, k.current = 48 → k.idleP = 16 → Caller k := by
    intro k hc hi
    rw [Caller, hc, hi]
    decide
  have entry : 0 < maxPipes := by decide
  have write : pipeProgram 48 (.idle 0 []) (.writeTurn 0 65) (writeNext 0 [65, 66] 0 []) :=
    ⟨_, .write 0 [] 0 [65, 66] (by decide) (by decide), 65, rfl, rfl, rfl⟩
  have writeMore : pipeProgram 48 (.writing 0 [65, 66] 1 [65] false) (.writeTurn 0 66)
      (writeNext 0 [65, 66] 1 [65]) :=
    ⟨_, .stay _, 66, rfl, rfl, rfl⟩
  have read : pipeProgram 48 (.idle (intOf 2) [65, 66]) (.readTurn 0 0) (readNext 0 1 0 []) :=
    ⟨_, .read _ _ 0 1 (by decide) (by decide), rfl, rfl⟩
  obtain ⟨start, m₁, m₂, hboot, hbooted, hidle, run₁, create, run₄⟩ := shellPipe_run hshell
  have run₅ := run₄.call hcur₄ (hcaller k₄ hcur₄ hidle₄) write entry hexec₅ Reply.noConfusion
  have run₆ := run₅.call hcur₅ (hcaller k₅ hcur₅ hidle₅) writeMore entry hexec₆ Reply.noConfusion
  have run₂ := run₆.call hcur₆ (hcaller k₆ hcur₆ hidle₆) read entry hexec₇ Reply.noConfusion
  exact ⟨start, m₁, m₂, _, _, _, hboot, run₁, create, run₂, hcount, rfl, rfl,
    (pipe_is_lossless_fifo hbooted.quiet hidle run₁ create run₂ (by decide) hused hid).1⟩

end Runs
end SoKernel
