import SoKernel.Ipc.PipeFifo
import SoKernel.Lib.OnePlace
import SoKernel.Userland.Mvar
import SoKernel.Userland.MvarNames

/-!
# An MVar holds one letter

The machine of the writers and readers simulates a channel with one place: `slots` and `items` are
its semaphores, the buffer of the pipe is the channel, and a process is at the stage that its next
call tells. The mutex changes nothing there, because only the process with the token takes it.
-/

namespace SoKernel

open Function (update)

section Frames

variable {k k' : Kernel} {V V' : Sems} {c : IpcCall} {r : Reply} {a i : ℕ}
  {s : CountingSemaphore ℕ}

/-- The call changes the semaphore. -/
def Touches (a : ℕ) : IpcCall → Prop
  | .semClose id | .semWait id | .semSignal id | .semSet id _ => id = a
  | _ => False

/-- A call on other semaphores, or on a pipe, leaves the semaphore of a user. -/
theorem IpcEffect.semKept (effect : IpcEffect k V k' V' c r) (hs : V a = some s)
    (hown : ¬PipeSem k a) (hfar : ¬Touches a c) : V' a = some s := by
  have hother : ∀ {b : ℕ} {x : Option (CountingSemaphore ℕ)}, V' = update V b x → b ≠ a →
      V' a = some s := by
    intro b x hsems hne
    rw [hsems, Function.update_of_ne (Ne.symm hne), hs]
  have hpipe : ∀ i < maxPipes, (k.pipes i).used = true → a ∉ (k.pipes i).semIds :=
    fun i hi hu => not_mem_semIds hown hi hu
  cases effect with
  | semAlloc grown => exact grown.old a s hs
  | semOpen _ _ sems => exact sems ▸ hs
  | semClose _ _ _ sems => exact (sems.1 a fun hm => hfar (List.mem_singleton.mp hm).symm).trans hs
  | semMissing _ _ sems => exact sems ▸ hs
  | semTaken _ _ _ _ _ sems => exact hother sems hfar
  | semSignal _ _ _ sems => exact hother sems hfar
  | semSetFailed _ sems => exact sems ▸ hs
  | semSet _ _ _ _ sems => exact hother sems hfar
  | pipeCreate grown => exact grown.old a s hs
  | pipeMissing _ _ sems => exact sems ▸ hs
  | pipeOpen _ _ _ sems => exact sems ▸ hs
  | pipeClose effect =>
      cases effect with
      | missing _ _ sems => exact sems ▸ hs
      | closed i _ found _ _ _ _ sems =>
          obtain ⟨hi, hu, -⟩ := pipeGetById_mem found
          exact hother sems fun he => hpipe i hi hu (by simp [Pipe.semIds, he])
      | destroyed i found _ _ _ sems =>
          obtain ⟨hi, hu, -⟩ := pipeGetById_mem found
          exact (sems.1 a (hpipe i hi hu)).trans hs
  | @readTurn i _ _ bound effect =>
      cases effect with
      | gone _ _ sems => exact sems ▸ hs
      | ended _ _ _ _ _ sems => exact sems ▸ hs
      | moved used _ _ _ sems =>
          exact hother sems fun he => hpipe i bound used (by simp [Pipe.semIds, he])
      | again used _ _ _ _ _ _ sems =>
          exact hother sems fun he => hpipe i bound used (by simp [Pipe.semIds, he])
  | @writeTurn i _ _ bound effect =>
      cases effect with
      | gone _ _ sems => exact sems ▸ hs
      | ended _ _ _ _ sems => exact sems ▸ hs
      | moved used _ _ _ _ sems =>
          exact hother sems fun he => hpipe i bound used (by simp [Pipe.semIds, he])
      | again used _ _ _ _ _ _ _ sems =>
          exact hother sems fun he => hpipe i bound used (by simp [Pipe.semIds, he])

theorem WaitsFor.semKept {b : ℕ} {x : Option (CountingSemaphore ℕ)} (waits : WaitsFor k c b)
    (hs : V a = some s) (hown : ¬PipeSem k a) (hfar : ¬Touches a c) : update V b x a = some s := by
  have hne : a ≠ b := by
    rintro rfl
    cases c with
    | semWait id => exact hfar waits.1.symm
    | readTurn i n =>
        obtain ⟨rfl, hi, hu, -⟩ := waits
        exact not_mem_semIds hown hi hu (by simp [Pipe.semIds])
    | writeTurn i b =>
        obtain ⟨rfl, hi, hu, -⟩ := waits
        exact not_mem_semIds hown hi hu (by simp [Pipe.semIds])
    | _ => exact waits.elim
  rw [Function.update_of_ne hne, hs]

variable {σ : Type} {prog : Program σ} {m m' : Ipc σ} {e : Option IpcEvent}

/-- A semaphore of a user never becomes one of a pipe. -/
theorem IpcStep.own (step : IpcStep prog m e m') (h : Sound m.kernel V) (hs : V a = some s)
    (hown : ¬PipeSem m.kernel a) : ¬PipeSem m'.kernel a := by
  cases step with
  | call caller acts promise step runs =>
      rcases h.exec caller promise step with ⟨-, -, V', -, effect⟩ | ⟨hr, -⟩
      · exact effect.not_pipeSem h step hs hown
      · exact absurd hr runs
  | block caller acts promise step pick nobody switch =>
      rcases h.exec caller promise step with ⟨hr, -⟩ | ⟨-, b, t, -, hqueued⟩
      · exact absurd rfl hr
      · obtain ⟨-, hpipes, -⟩ := h.block hqueued nobody pick switch
        exact fun hp => hown ((pipeSem_congr hpipes).mp hp)
  | switch pick nobody switch =>
      obtain ⟨-, hhanded⟩ := h.switch nobody pick switch
      exact fun hp => hown ((pipeSem_congr hhanded.pipes).mp hp)
  | resched => exact hown

/-- A step that does not close the pipe takes from the front of its buffer and adds at the end. -/
theorem StepEffect.pipeKept (effect : StepEffect prog m V m' V' e) (h : Sound m.kernel V)
    (hi : i < maxPipes) {v : PipeView} (hv : Shows m.kernel V i v) (hring : v.pipe.Ring)
    (hclose : ∀ p w r, e ≠ some ⟨p, .pipeClose v.pipe.id w, r⟩) :
    ∃ v', Shows m'.kernel V' i v' ∧ v'.pipe.id = v.pipe.id ∧ v'.pipe.Ring ∧
      v.pipe.contents ++ inserted i e.toList = removed i e.toList ++ v'.pipe.contents := by
  rcases effect.pipeMove h hi hv with ⟨-, c, r, he, w, rfl, -⟩ | ⟨v', hv', move⟩
  · exact absurd he (hclose _ w r)
  · cases move with
    | @call c r step =>
        obtain ⟨hring', hfifo⟩ := step.fifo hring
        refine ⟨v', hv', step.id_eq, hring', ?_⟩
        have hins := inserted_append (i := i) [] ⟨m.kernel.current, c, r⟩
        have hrem := removed_append (i := i) [] ⟨m.kernel.current, c, r⟩
        rw [List.nil_append] at hins hrem
        rw [hins, hrem]
        exact hfifo
    | switch same => exact ⟨v', hv', by rw [same], same ▸ hring, by rw [same]; exact List.append_nil _⟩

end Frames

namespace Userland

open OnePlace (Stage)

section Mirror

/-- The stage of a writer before its next call. -/
def WriterAt.stage : WriterAt → Stage UInt8
  | .pipeOpen | .pipeDup | .waitSlots | .returned => .away
  | .waitMutex | .write | .postMutex false | .postSlots _ => .slot
  | .postMutex true | .postItems => .sent

/-- The stage of a reader before its next call. -/
def ReaderAt.stage : ReaderAt → Stage UInt8
  | .pipeOpen | .pipeDup | .waitItems | .returned => .away
  | .waitMutex | .read | .postMutex false | .postItems _ => .item
  | .putChar b => .got b
  | .postMutex true | .postSlots => .shown

def MvarJob.stage : MvarJob → Stage UInt8
  | .outside => .away
  | .writer _ here => here.stage
  | .reader here => here.stage

/-- The channel that the machine implements. -/
structure Mirrors (ids : MvarIds) (trace : List IpcEvent) (m : Mvar) (V : Sems)
    (s : OnePlace ℕ UInt8) : Prop where
  slots : V ids.slots = some s.slots
  items : V ids.items = some s.items
  ownSlots : ¬PipeSem m.ipc.kernel ids.slots
  ownItems : ¬PipeSem m.ipc.kernel ids.items
  pipe : ∃ v, Shows m.ipc.kernel V ids.entry v ∧ v.pipe.id = ids.pipeId ∧ v.pipe.Ring ∧
    v.pipe.contents = s.channel
  stage : ∀ p, s.stage p = (m.ipc.thread p).stage
  written : s.written = inserted ids.entry trace
  shown : s.shown = m.shown

variable {ids : MvarIds} {t : List IpcEvent} {m : Mvar} {V V' : Sems} {s s' : OnePlace ℕ UInt8}
  {k k' : Kernel} {c : IpcCall} {r : Reply} {p a : ℕ} {x : Stage UInt8} {es : List IpcEvent}

/-- The running process is in no queue. -/
theorem Mirrors.out (h : Mirrors ids t m V s) (hsound : Sound m.ipc.kernel V) :
    ¬s.Waits m.ipc.kernel.current := by
  rintro (hm | hm)
  · exact hsound.away _ _ h.slots hm
  · exact hsound.away _ _ h.items hm

/-- What a call is for the channel: the process goes to the stage `x`. -/
structure Follows (ids : MvarIds) (es : List IpcEvent) (V' : Sems) (p : ℕ) (x : Stage UInt8)
    (s s' : OnePlace ℕ UInt8) : Prop where
  move : s.Move p s'
  slots : V' ids.slots = some s'.slots
  items : V' ids.items = some s'.items
  channel : s.channel ++ inserted ids.entry es = removed ids.entry es ++ s'.channel
  stage : s'.stage = update s.stage p x
  written : s'.written = s.written ++ inserted ids.entry es
  shown : s'.shown = s.shown

/-- A call that neither uses one of the semaphores nor moves a letter. -/
theorem Follows.idle (hslots : V' ids.slots = some s.slots) (hitems : V' ids.items = some s.items)
    (hins : inserted ids.entry es = []) (hrem : removed ids.entry es = []) (hx : s.stage p = x) :
    Follows ids es V' p x s s := by
  refine ⟨.idle, hslots, hitems, ?_, ?_, ?_, rfl⟩
  · rw [hins, hrem, List.append_nil]
    rfl
  · rw [← hx, Function.update_eq_self]
  · rw [hins, List.append_nil]

section Calls

variable (hslots : V ids.slots = some s.slots) (hitems : V ids.items = some s.items)
  (ownSlots : ¬PipeSem k ids.slots) (ownItems : ¬PipeSem k ids.items)
  (hapart : ids.slots ≠ ids.items ∧ ids.slots ≠ ids.mutex ∧ ids.items ≠ ids.mutex)
include hslots hitems ownSlots ownItems hapart

/-- A call of a writer that does not block. -/
theorem follows_writer {writerId : UInt8} {here : WriterAt} (calls : WriterCalls ids writerId here c)
    (hstage : s.stage p = here.stage) (effect : IpcEffect k V k' V' c r) (hr : r ≠ .blocked) :
    ∃ s', Follows ids [⟨p, c, r⟩] V' p (here.next r).stage s s' := by
  have hkept : ¬Touches ids.slots c → ¬Touches ids.items c →
      V' ids.slots = some s.slots ∧ V' ids.items = some s.items := fun hfar hfar' =>
    ⟨effect.semKept hslots ownSlots hfar, effect.semKept hitems ownItems hfar'⟩
  cases here with
  | pipeOpen =>
      rcases calls with rfl | rfl
      all_goals
        obtain ⟨h₁, h₂⟩ := hkept id id
        refine ⟨s, .idle h₁ h₂ rfl rfl ?_⟩
        rw [hstage, WriterAt.next]
        split <;> rfl
  | pipeDup =>
      cases calls
      obtain ⟨h₁, h₂⟩ := hkept id id
      refine ⟨s, .idle h₁ h₂ rfl rfl ?_⟩
      rw [hstage, WriterAt.next]
      split <;> rfl
  | waitSlots =>
      cases calls
      cases effect with
      | semMissing none =>
          rw [hslots] at none
          cases none
      | @semTaken _ u _ entry pos _ _ sems =>
          obtain rfl := Option.some.inj (hslots.symm.trans entry)
          refine ⟨_, .takeSlot hstage pos, ?_, ?_, (List.append_nil _).trans rfl, rfl,
            (List.append_nil _).symm, rfl⟩
          · rw [sems, Function.update_self]
          · rw [sems, Function.update_of_ne hapart.1.symm, hitems]
  | waitMutex =>
      cases calls
      obtain ⟨h₁, h₂⟩ := hkept hapart.2.1.symm hapart.2.2.symm
      refine ⟨s, .idle h₁ h₂ rfl rfl ?_⟩
      rw [hstage, WriterAt.next]
      split <;> rfl
  | write =>
      cases calls
      obtain ⟨h₁, h₂⟩ := hkept id id
      cases r with
      | moved b =>
          have hins : inserted ids.entry [⟨p, .writeTurn ids.entry writerId, .moved b⟩] = [b] := by
            simp [inserted, IpcEvent.inserted]
          refine ⟨_, .write b hstage, h₁, h₂, ?_, rfl, ?_, rfl⟩
          · rw [hins]
            rfl
          · rw [hins]
      | blocked => exact absurd rfl hr
      | _ => exact ⟨s, .idle h₁ h₂ rfl rfl hstage⟩
  | postMutex written =>
      cases calls
      obtain ⟨h₁, h₂⟩ := hkept hapart.2.1.symm hapart.2.2.symm
      cases written with
      | true => exact ⟨s, .idle h₁ h₂ rfl rfl hstage⟩
      | false => exact ⟨s, .idle h₁ h₂ rfl rfl hstage⟩
  | postItems =>
      cases calls
      cases effect with
      | semSignal _ _ _ sems =>
          rw [Sems.signal_of_some hitems] at sems
          refine ⟨_, .postItem (.inr hstage), ?_, ?_, (List.append_nil _).trans rfl, rfl,
            (List.append_nil _).symm, rfl⟩
          · rw [sems, Function.update_of_ne hapart.1, hslots]
          · rw [sems, Function.update_self]
  | postSlots leaves =>
      cases calls
      cases effect with
      | semSignal _ _ _ sems =>
          rw [Sems.signal_of_some hslots] at sems
          have hx : (WriterAt.next (.postSlots leaves) r).stage = .away := by
            cases leaves <;> rfl
          rw [hx]
          refine ⟨_, .postSlot (.inl hstage), ?_, ?_, (List.append_nil _).trans rfl, rfl,
            (List.append_nil _).symm, rfl⟩
          · rw [sems, Function.update_self]
          · rw [sems, Function.update_of_ne hapart.1.symm, hitems]
  | returned => exact calls.elim

/-- A call of a reader that does not block. -/
theorem follows_reader {here : ReaderAt} (calls : ReaderCalls ids here c)
    (hstage : s.stage p = here.stage) (effect : IpcEffect k V k' V' c r) (hr : r ≠ .blocked)
    (hpipe : ∃ l, s.channel ++ inserted ids.entry [⟨p, c, r⟩] = removed ids.entry [⟨p, c, r⟩] ++ l) :
    ∃ s', Follows ids [⟨p, c, r⟩] V' p (here.next r).stage s s' := by
  have hkept : ¬Touches ids.slots c → ¬Touches ids.items c →
      V' ids.slots = some s.slots ∧ V' ids.items = some s.items := fun hfar hfar' =>
    ⟨effect.semKept hslots ownSlots hfar, effect.semKept hitems ownItems hfar'⟩
  cases here with
  | pipeOpen =>
      rcases calls with rfl | rfl
      all_goals
        obtain ⟨h₁, h₂⟩ := hkept id id
        refine ⟨s, .idle h₁ h₂ rfl rfl ?_⟩
        rw [hstage, ReaderAt.next]
        split <;> rfl
  | pipeDup =>
      cases calls
      obtain ⟨h₁, h₂⟩ := hkept id id
      refine ⟨s, .idle h₁ h₂ rfl rfl ?_⟩
      rw [hstage, ReaderAt.next]
      split <;> rfl
  | waitItems =>
      cases calls
      cases effect with
      | semMissing none =>
          rw [hitems] at none
          cases none
      | @semTaken _ u _ entry pos _ _ sems =>
          obtain rfl := Option.some.inj (hitems.symm.trans entry)
          refine ⟨_, .takeItem hstage pos, ?_, ?_, (List.append_nil _).trans rfl, rfl,
            (List.append_nil _).symm, rfl⟩
          · rw [sems, Function.update_of_ne hapart.1, hslots]
          · rw [sems, Function.update_self]
  | waitMutex =>
      cases calls
      obtain ⟨h₁, h₂⟩ := hkept hapart.2.1.symm hapart.2.2.symm
      refine ⟨s, .idle h₁ h₂ rfl rfl ?_⟩
      rw [hstage, ReaderAt.next]
      split <;> rfl
  | read =>
      cases calls
      obtain ⟨h₁, h₂⟩ := hkept id id
      cases r with
      | moved b =>
          have hrem : removed ids.entry [⟨p, .readTurn ids.entry 0, .moved b⟩] = [b] := by
            simp [removed, IpcEvent.removed]
          obtain ⟨l, hl⟩ := hpipe
          rw [hrem] at hl
          refine ⟨_, .read b l hstage ?_, h₁, h₂, ?_, rfl, (List.append_nil _).symm, rfl⟩
          · exact (List.append_nil _).symm.trans hl
          · rw [hrem]
            exact hl
      | blocked => exact absurd rfl hr
      | _ => exact ⟨s, .idle h₁ h₂ rfl rfl hstage⟩
  | putChar b => exact calls.elim
  | postMutex got =>
      cases calls
      obtain ⟨h₁, h₂⟩ := hkept hapart.2.1.symm hapart.2.2.symm
      cases got with
      | true => exact ⟨s, .idle h₁ h₂ rfl rfl hstage⟩
      | false => exact ⟨s, .idle h₁ h₂ rfl rfl hstage⟩
  | postSlots =>
      cases calls
      cases effect with
      | semSignal _ _ _ sems =>
          rw [Sems.signal_of_some hslots] at sems
          refine ⟨_, .postSlot (.inr hstage), ?_, ?_, (List.append_nil _).trans rfl, rfl,
            (List.append_nil _).symm, rfl⟩
          · rw [sems, Function.update_self]
          · rw [sems, Function.update_of_ne hapart.1.symm, hitems]
  | postItems leaves =>
      cases calls
      cases effect with
      | semSignal _ _ _ sems =>
          rw [Sems.signal_of_some hitems] at sems
          have hx : (ReaderAt.next (.postItems leaves) r).stage = .away := by
            cases leaves <;> rfl
          rw [hx]
          refine ⟨_, .postItem (.inl hstage), ?_, ?_, (List.append_nil _).trans rfl, rfl,
            (List.append_nil _).symm, rfl⟩
          · rw [sems, Function.update_of_ne hapart.1, hslots]
          · rw [sems, Function.update_self]
  | returned => exact calls.elim

variable {u : CountingSemaphore ℕ} (waits : WaitsFor k c a) (entry : V a = some u)
  (empty : ¬0 < u.value) (sems : V' = update V a (some (u.enqueue p)))
include waits entry empty sems

/-- A call of a writer that blocks. -/
theorem follows_writer_blocked {writerId : UInt8} {here : WriterAt}
    (calls : WriterCalls ids writerId here c) (hstage : s.stage p = here.stage) :
    ∃ s', Follows ids [⟨p, c, .blocked⟩] V' p (here.next .blocked).stage s s' := by
  have hkept : ¬Touches ids.slots c → ¬Touches ids.items c →
      V' ids.slots = some s.slots ∧ V' ids.items = some s.items := fun hfar hfar' =>
    ⟨sems ▸ waits.semKept hslots ownSlots hfar, sems ▸ waits.semKept hitems ownItems hfar'⟩
  cases here with
  | pipeOpen =>
      rcases calls with rfl | rfl
      all_goals exact waits.elim
  | waitSlots =>
      cases calls
      obtain ⟨rfl, -⟩ := waits
      obtain rfl := Option.some.inj (hslots.symm.trans entry)
      refine ⟨_, .awaitSlot hstage empty, ?_, ?_, (List.append_nil _).trans rfl, rfl,
        (List.append_nil _).symm, rfl⟩
      · rw [sems, Function.update_self]
      · rw [sems, Function.update_of_ne hapart.1.symm, hitems]
  | waitMutex =>
      cases calls
      obtain ⟨h₁, h₂⟩ := hkept hapart.2.1.symm hapart.2.2.symm
      exact ⟨s, .idle h₁ h₂ rfl rfl hstage⟩
  | write =>
      cases calls
      obtain ⟨h₁, h₂⟩ := hkept id id
      exact ⟨s, .idle h₁ h₂ rfl rfl hstage⟩
  | returned => exact calls.elim
  | _ =>
      cases calls
      exact waits.elim

/-- A call of a reader that blocks. -/
theorem follows_reader_blocked {here : ReaderAt} (calls : ReaderCalls ids here c)
    (hstage : s.stage p = here.stage) :
    ∃ s', Follows ids [⟨p, c, .blocked⟩] V' p (here.next .blocked).stage s s' := by
  have hkept : ¬Touches ids.slots c → ¬Touches ids.items c →
      V' ids.slots = some s.slots ∧ V' ids.items = some s.items := fun hfar hfar' =>
    ⟨sems ▸ waits.semKept hslots ownSlots hfar, sems ▸ waits.semKept hitems ownItems hfar'⟩
  cases here with
  | pipeOpen =>
      rcases calls with rfl | rfl
      all_goals exact waits.elim
  | waitItems =>
      cases calls
      obtain ⟨rfl, -⟩ := waits
      obtain rfl := Option.some.inj (hitems.symm.trans entry)
      refine ⟨_, .awaitItem hstage empty, ?_, ?_, (List.append_nil _).trans rfl, rfl,
        (List.append_nil _).symm, rfl⟩
      · rw [sems, Function.update_of_ne hapart.1, hslots]
      · rw [sems, Function.update_self]
  | waitMutex =>
      cases calls
      obtain ⟨h₁, h₂⟩ := hkept hapart.2.1.symm hapart.2.2.symm
      exact ⟨s, .idle h₁ h₂ rfl rfl hstage⟩
  | read =>
      cases calls
      obtain ⟨h₁, h₂⟩ := hkept id id
      exact ⟨s, .idle h₁ h₂ rfl rfl hstage⟩
  | putChar b => exact calls.elim
  | returned => exact calls.elim
  | _ =>
      cases calls
      exact waits.elim

end Calls

/-- A call of another process. -/
theorem Foreign.aside (h : Foreign ids c) :
    ¬Touches ids.slots c ∧ ¬Touches ids.items c ∧ (∀ p r, inserted ids.entry [⟨p, c, r⟩] = []) ∧
      ∀ p r, removed ids.entry [⟨p, c, r⟩] = [] := by
  cases c with
  | semClose id | semWait id | semSignal id | semSet id v =>
      exact ⟨h.1, h.2.1, fun _ _ => rfl, fun _ _ => rfl⟩
  | readTurn i n =>
      refine ⟨id, id, fun _ _ => rfl, fun p r => ?_⟩
      cases r with
      | moved b => simp [removed, IpcEvent.removed, show i ≠ ids.entry from h]
      | _ => rfl
  | writeTurn i b =>
      refine ⟨id, id, fun p r => ?_, fun _ _ => rfl⟩
      cases r with
      | moved b => simp [inserted, IpcEvent.inserted, show i ≠ ids.entry from h]
      | _ => rfl
  | _ => exact ⟨id, id, fun _ _ => rfl, fun _ _ => rfl⟩

/-- Only the writers and the readers use the pipe, and nobody closes it. -/
theorem MvarActs.not_close {job : MvarJob} {next : Reply → MvarJob} (acts : MvarActs ids job c next)
    (w : Bool) : c ≠ .pipeClose ids.pipeId w := by
  rintro rfl
  cases acts with
  | foreign foreign => exact foreign rfl
  | @writer writerId here _ calls =>
      cases here with
      | pipeOpen => rcases calls with he | he <;> cases he
      | returned => exact calls
      | _ => cases calls
  | @reader here _ calls =>
      cases here with
      | pipeOpen => rcases calls with he | he <;> cases he
      | returned | putChar b => exact calls
      | _ => cases calls

/-- A process in the middle of `sys_read` has waited for `items`. -/
theorem MvarActs.read {job : MvarJob} {next : Reply → MvarJob} {n : ℕ}
    (acts : MvarActs ids job (.readTurn ids.entry n) next) : job.stage = .item := by
  cases acts with
  | foreign foreign => exact absurd rfl foreign
  | @writer writerId here _ calls =>
      cases here with
      | pipeOpen => rcases calls with he | he <;> cases he
      | returned => exact calls.elim
      | _ => cases calls
  | @reader here _ calls =>
      cases here with
      | pipeOpen => rcases calls with he | he <;> cases he
      | returned | putChar b => exact calls.elim
      | read => rfl
      | _ => cases calls

/-- Nobody closes the pipe. -/
theorem not_closed {e : Option IpcEvent} {m m' : Ipc MvarJob}
    (effect : StepEffect (mvarProgram ids) m V m' V' e) (q : ℕ) (w : Bool) (r : Reply) :
    e ≠ some ⟨q, .pipeClose ids.pipeId w, r⟩ := by
  cases effect with
  | call next caller acts =>
      intro he
      exact MvarActs.not_close acts w (IpcEvent.mk.inj (Option.some.inj he)).2.1
  | block next a s caller acts =>
      intro he
      exact MvarActs.not_close acts w (IpcEvent.mk.inj (Option.some.inj he)).2.1
  | switch => simp

variable (hapart : ids.slots ≠ ids.items ∧ ids.slots ≠ ids.mutex ∧ ids.items ≠ ids.mutex)
include hapart

/-- A call, or a context switch, is a step on the channel. -/
theorem Mirrors.follows (h : Mirrors ids t m V s) {e : Option IpcEvent} {ipc' : Ipc MvarJob}
    (effect : StepEffect (mvarProgram ids) m.ipc V ipc' V' e)
    (hpipe : ∃ l, s.channel ++ inserted ids.entry e.toList = removed ids.entry e.toList ++ l) :
    ∃ s', Follows ids e.toList V' m.ipc.kernel.current (ipc'.thread m.ipc.kernel.current).stage s s' ∧
      ∀ q, q ≠ m.ipc.kernel.current → ipc'.thread q = m.ipc.thread q := by
  have hstage := h.stage m.ipc.kernel.current
  cases effect with
  | @call c r next caller acts promise steers effect thread runs =>
      rw [thread, Function.update_self]
      refine (?_ : ∃ s', _).imp fun s' hs' => ⟨hs', fun q hq => Function.update_of_ne hq ..⟩
      generalize m.ipc.thread m.ipc.kernel.current = job at acts hstage
      cases acts with
      | foreign foreign =>
          obtain ⟨hfar, hfar', hins, hrem⟩ := foreign.aside
          exact ⟨s, .idle (effect.semKept h.slots h.ownSlots hfar) (effect.semKept h.items h.ownItems hfar')
            (hins _ _) (hrem _ _) hstage⟩
      | writer calls =>
          exact follows_writer h.slots h.items h.ownSlots h.ownItems hapart calls hstage effect runs
      | reader calls =>
          exact follows_reader h.slots h.items h.ownSlots h.ownItems hapart calls hstage effect runs hpipe
  | @block c next a u caller acts waits entry empty sems _ _ _ _ thread =>
      rw [thread, Function.update_self]
      refine (?_ : ∃ s', _).imp fun s' hs' => ⟨hs', fun q hq => Function.update_of_ne hq ..⟩
      generalize m.ipc.thread m.ipc.kernel.current = job at acts hstage
      cases acts with
      | foreign foreign =>
          obtain ⟨hfar, hfar', hins, hrem⟩ := foreign.aside
          exact ⟨s, .idle (sems ▸ waits.semKept h.slots h.ownSlots hfar)
            (sems ▸ waits.semKept h.items h.ownItems hfar') (hins _ _) (hrem _ _) hstage⟩
      | writer calls =>
          exact follows_writer_blocked h.slots h.items h.ownSlots h.ownItems hapart waits entry empty
            sems calls hstage
      | reader calls =>
          exact follows_reader_blocked h.slots h.items h.ownSlots h.ownItems hapart waits entry empty
            sems calls hstage
  | switch _ sems thread =>
      rw [thread]
      exact ⟨s, .idle (sems ▸ h.slots) (sems ▸ h.items) rfl rfl hstage, fun _ _ => rfl⟩

/-- The step lemma for calls and context switches. -/
theorem Mirrors.ipc (h : Mirrors ids t m V s) (hsound : Sound m.ipc.kernel V)
    (hi : ids.entry < maxPipes) {e : Option IpcEvent} {ipc' : Ipc MvarJob}
    (step : IpcStep (mvarProgram ids) m.ipc e ipc') :
    ∃ V' s', Sound ipc'.kernel V' ∧ Mirrors ids (t ++ e.toList) ⟨ipc', m.shown⟩ V' s' ∧
      s.Move m.ipc.kernel.current s' := by
  obtain ⟨V', hsound', effect⟩ := step.effect hsound
  obtain ⟨v, hv, hid, hring, hcontents⟩ := h.pipe
  obtain ⟨v', hv', hid', hring', hfifo⟩ := effect.pipeKept hsound hi hv hring
    (hid ▸ not_closed effect)
  rw [hcontents] at hfifo
  obtain ⟨s', hs', hrest⟩ := h.follows hapart effect ⟨_, hfifo⟩
  refine ⟨V', s', hsound', ⟨hs'.slots, hs'.items, step.own hsound h.slots h.ownSlots,
    step.own hsound h.items h.ownItems, ⟨v', hv', hid'.trans hid, hring', ?_⟩, fun q => ?_, ?_,
    hs'.shown.trans h.shown⟩, hs'.move⟩
  · exact List.append_cancel_left (hfifo.symm.trans hs'.channel)
  · rw [hs'.stage]
    by_cases hq : q = m.ipc.kernel.current
    · rw [hq, Function.update_self]
    · rw [Function.update_of_ne hq, hrest q hq]
      exact h.stage q
  · rw [hs'.written, h.written, inserted, inserted, inserted, List.filterMap_append]

end Mirror

section Runs

variable {ids : MvarIds} {t : List IpcEvent} {m m' : Mvar} {V : Sems} {s : OnePlace ℕ UInt8}
  {e : Option IpcEvent}

/-- What holds in every state of a run. -/
structure MvarInv (ids : MvarIds) (t : List IpcEvent) (m : Mvar) : Prop where
  shows : ∃ V s, Sound m.ipc.kernel V ∧ Mirrors ids t m V s ∧ s.Inv
  moving : ∀ q n r, ⟨q, .readTurn ids.entry n, r⟩ ∈ t → ∃ b, r = .moved b

/-- A reader in `sys_read` gets a letter at once. -/
theorem reads_letter (h : Mirrors ids t m V s) (hinv : s.Inv) (hsound : Sound m.ipc.kernel V)
    {ipc' : Ipc MvarJob} {q n : ℕ} {r : Reply}
    (step : IpcStep (mvarProgram ids) m.ipc (some ⟨q, .readTurn ids.entry n, r⟩) ipc') :
    ∃ b, r = .moved b := by
  have hfull : (∃ next, MvarActs ids (m.ipc.thread m.ipc.kernel.current) (.readTurn ids.entry n) next) →
      (m.ipc.kernel.pipes ids.entry).used = true ∧ (m.ipc.kernel.pipes ids.entry).count ≠ 0 := by
    rintro ⟨next, acts⟩
    have hitem := acts.read
    rw [← h.stage] at hitem
    obtain ⟨b, hb⟩ := hinv.found ⟨by rw [hitem]; simp, h.out hsound⟩ hitem
    obtain ⟨v, hv, -, -, hcontents⟩ := h.pipe
    rw [hv.pipe]
    refine ⟨hv.used, fun hempty => ?_⟩
    rw [← hcontents, Pipe.contents, hempty] at hb
    cases hb
  obtain ⟨V', -, effect⟩ := step.effect hsound
  cases effect with
  | call next _ acts _ _ effect =>
      obtain ⟨hused, hcount⟩ := hfull ⟨_, acts⟩
      cases effect with
      | readTurn _ effect =>
          cases effect with
          | gone unused =>
              rw [hused] at unused
              cases unused
          | ended _ empty => exact absurd empty hcount
          | moved => exact ⟨_, rfl⟩
          | again _ empty => exact absurd empty hcount
  | block next _ _ _ acts waits =>
      obtain ⟨-, -, -, hempty, -⟩ := waits
      exact absurd hempty (hfull ⟨_, acts⟩).2

theorem MvarInv.step (h : MvarInv ids t m) (hi : ids.entry < maxPipes)
    (hapart : ids.slots ≠ ids.items ∧ ids.slots ≠ ids.mutex ∧ ids.items ≠ ids.mutex)
    (step : MvarStep ids m e m') : MvarInv ids (t ++ e.toList) m' := by
  obtain ⟨⟨V, s, hsound, hmirrors, hinv⟩, hmoving⟩ := h
  cases step with
  | ipc step =>
      obtain ⟨V', s', hsound', hmirrors', hmove⟩ := hmirrors.ipc hapart hsound hi step
      refine ⟨⟨V', s', hsound', hmirrors', hmove.inv hinv (hmirrors.out hsound)⟩, fun q n r hm => ?_⟩
      rcases List.mem_append.mp hm with hm | hm
      · exact hmoving q n r hm
      · rw [Option.mem_toList] at hm
        obtain rfl := hm
        exact reads_letter hmirrors hinv hsound step
  | @enter p job outside entry =>
      rw [Option.toList_none, List.append_nil]
      refine ⟨⟨V, s, hsound, ⟨hmirrors.slots, hmirrors.items, hmirrors.ownSlots, hmirrors.ownItems,
        hmirrors.pipe, fun q => ?_, hmirrors.written, hmirrors.shown⟩, hinv⟩, hmoving⟩
      rw [hmirrors.stage q]
      dsimp only
      by_cases hq : q = p
      · rw [hq, Function.update_self, outside]
        cases entry <;> rfl
      · rw [Function.update_of_ne hq]
  | @putChar b caller here =>
      rw [Option.toList_none, List.append_nil]
      have hgot : s.stage m.ipc.kernel.current = .got b := by
        rw [hmirrors.stage, here]
        rfl
      have hmove := OnePlace.Move.show b hgot
      refine ⟨⟨V, { s with
          shown := s.shown ++ [b]
          stage := update s.stage m.ipc.kernel.current .shown },
        hsound, ⟨hmirrors.slots, hmirrors.items, hmirrors.ownSlots, hmirrors.ownItems,
          hmirrors.pipe, fun q => ?_, hmirrors.written, ?_⟩, hmove.inv hinv (hmirrors.out hsound)⟩, hmoving⟩
      · dsimp only
        by_cases hq : q = m.ipc.kernel.current
        · rw [hq, Function.update_self, Function.update_self]
          rfl
        · rw [Function.update_of_ne hq, Function.update_of_ne hq]
          exact hmirrors.stage q
      · dsimp only
        rw [hmirrors.shown]

theorem MvarRuns.inv {start : Mvar} (run : MvarRuns ids start t m) (h : MvarInv ids [] start)
    (hi : ids.entry < maxPipes)
    (hapart : ids.slots ≠ ids.items ∧ ids.slots ≠ ids.mutex ∧ ids.items ≠ ids.mutex) :
    MvarInv ids t m := by
  induction run with
  | nil => exact h
  | snoc _ step ih => exact ih.step hi hapart step

end Runs

section Creation

variable {k k' : Kernel} {V : Sems} {ids : MvarIds} {v : ℤ}

/-- A new semaphore. -/
theorem semAlloc_sound {id : ℕ} (h : Sound k V) (hc : Caller k) (halloc : semAlloc k v = (id, k'))
    (hid : id ≠ 0) :
    ∃ V', Sound k' V' ∧ Grown V V' ∧ V id = none ∧ V' id = some ⟨v, []⟩ ∧ k'.pipes = k.pipes ∧
      Caller k' := by
  have hexec : ipcExec k (.semAlloc v) = some (k', .value id) := by rw [ipcExec, halloc]
  rcases h.exec hc (by exact trivial) hexec with ⟨-, -, V', h', effect⟩ | ⟨hr, -⟩
  · rcases h.sems.alloc v with heq | ⟨hfresh, sems, heq, hrep⟩
    · cases heq.symm.trans halloc
      exact absurd rfl hid
    · cases heq.symm.trans halloc
      obtain rfl := h'.sems.unique hrep
      cases effect with
      | semAlloc grown pipes =>
          exact ⟨_, h', grown, hfresh, Function.update_self .., pipes, hc⟩
  · cases hr

/-- What `mvarCmd` creates is ready for its writers and readers. -/
theorem mvarCreate_ready (h : Sound k V) (hc : Caller k) (hcreate : mvarCreate k = some (ids, k')) :
    (∃ V', Sound k' V') ∧ MvarReady k' ids := by
  unfold mvarCreate at hcreate
  obtain ⟨slots, k₁, h₁⟩ : ∃ id k₁, semAlloc k 1 = (id, k₁) := ⟨_, _, rfl⟩
  obtain ⟨items, k₂, h₂⟩ : ∃ id k₂, semAlloc k₁ 0 = (id, k₂) := ⟨_, _, rfl⟩
  obtain ⟨mutex, k₃, h₃⟩ : ∃ id k₃, semAlloc k₂ 1 = (id, k₃) := ⟨_, _, rfl⟩
  obtain ⟨pipeId, k₄, h₄⟩ : ∃ id k₄, pipeCreate k₃ = (id, k₄) := ⟨_, _, rfl⟩
  rw [h₁] at hcreate
  dsimp only at hcreate
  rw [h₂] at hcreate
  dsimp only at hcreate
  rw [h₃] at hcreate
  dsimp only at hcreate
  rw [h₄] at hcreate
  dsimp only at hcreate
  split at hcreate
  · cases hcreate
  rename_i hids
  simp only [not_or] at hids
  obtain ⟨hslots, hitems, hmutex, hpipe⟩ := hids
  obtain ⟨entry, hentry, hlast⟩ := Option.map_eq_some_iff.mp hcreate
  cases hlast
  obtain ⟨V₁, hs₁, hg₁, hn₁, hv₁, hp₁, hc₁⟩ := semAlloc_sound h hc h₁ hslots
  obtain ⟨V₂, hs₂, hg₂, hn₂, hv₂, hp₂, hc₂⟩ := semAlloc_sound hs₁ hc₁ h₂ hitems
  obtain ⟨V₃, hs₃, hg₃, hn₃, hv₃, hp₃, hc₃⟩ := semAlloc_sound hs₂ hc₂ h₃ hmutex
  have hexec : ipcExec k₃ .pipeCreate = some (k', .value pipeId) := by rw [ipcExec, h₄]
  rcases hs₃.exec hc₃ (by exact trivial) hexec with ⟨-, -, V₄, hs₄, effect⟩ | ⟨hr, -⟩
  swap
  · cases hr
  have hown : ∀ a s, V a = none → V₃ a = some s → ¬PipeSem k' a := by
    intro a s ha hs
    refine effect.not_pipeSem hs₃ hexec hs fun hp => ?_
    obtain ⟨u, hu⟩ := h.held ((pipeSem_congr (hp₃.trans (hp₂.trans hp₁))).mp hp)
    rw [ha] at hu
    cases hu
  have hold : ∀ {W W' : Sems} {a : ℕ}, Grown W W' → W' a = none → W a = none := by
    intro W W' a hg ha
    cases hs : W a with
    | none => rfl
    | some s =>
        rw [hg.old a s hs] at ha
        exact ha
  have hne : ∀ {W : Sems} {a b : ℕ} {s : CountingSemaphore ℕ}, W a = some s → W b = none → a ≠ b := by
    rintro W a b s ha hb rfl
    rw [ha] at hb
    cases hb
  cases effect with
  | pipeCreate hg₄ created =>
      have hready : ∀ {a : ℕ} {v : ℤ}, V₃ a = some ⟨v, []⟩ →
          semValue k' a = some v ∧ WaitQueue k' a [] := fun ha =>
        ⟨hs₄.sems.semValue (hg₄.old _ _ ha), hs₄.sems.waitQueue_iff.mpr ⟨_, hg₄.old _ _ ha, rfl⟩⟩
      have hvs := hg₃.old _ _ (hg₂.old _ _ hv₁)
      have hvi := hg₃.old _ _ hv₂
      obtain ⟨hentry', hused, hid⟩ := pipeGetById_mem hentry
      refine ⟨⟨V₄, hs₄⟩, hready hvs, hready hvi, hready hv₃,
        ⟨hne hv₁ hn₂, hne (hg₂.old _ _ hv₁) hn₃, hne hv₂ hn₃⟩,
        ⟨hown _ _ hn₁ hvs, hown _ _ (hold hg₁ hn₂) hvi, hown _ _ (hold hg₁ (hold hg₂ hn₃)) hv₃⟩,
        hentry', ⟨hused, hid⟩, ?_⟩
      cases created with
      | full => exact absurd rfl hpipe
      | failed => exact absurd rfl hpipe
      | created j q fresh pipes =>
          have hj : entry = j := by
            refine Decidable.of_not_not fun hej => ?_
            rw [pipes, Function.update_of_ne hej] at hused hid
            have hlt := (hs₃.tables.bound entry hentry' hused).2
            rw [hid] at hlt
            exact lt_irrefl _ hlt
          rw [pipes, hj, Function.update_self]
          exact fresh.contents

end Creation

section Names

variable {u u' : System} {name name' : List Char} {copied : Bool} {i id : ℕ}

/-- The registry with one more name. -/
theorem findSemIndex_update {r : SemRegistry} (id : ℕ) (hfree : findFreeSemSlot r = some i)
    (hnew : findSemIndex r name = none) :
    findSemIndex ⟨update r.names i (some name), update r.ids i id⟩ name = some i ∧
      ∀ name', name' ≠ name →
        findSemIndex ⟨update r.names i (some name), update r.ids i id⟩ name' = findSemIndex r name' := by
  have hslot : r.names i = none := by simpa using List.find?_some hfree
  have hi : i ∈ List.range maxUserSems := List.mem_of_find?_eq_some hfree
  have hother : ∀ j, j ≠ i → update r.names i (some name) j = r.names j := fun j hj =>
    Function.update_of_ne hj ..
  constructor
  · rw [findSemIndex, List.find?_eq_some_iff_append]
    obtain ⟨as, bs, hsplit⟩ := List.append_of_mem hi
    refine ⟨by simp, as, bs, hsplit, fun j hj => ?_⟩
    have hji : j ≠ i := by
      rintro rfl
      have hnodup := List.nodup_range (n := maxUserSems)
      rw [hsplit] at hnodup
      exact (List.nodup_append.mp hnodup).2.2 j hj j List.mem_cons_self rfl
    have hmem : j ∈ List.range maxUserSems := by
      rw [hsplit]
      exact List.mem_append_left _ hj
    have hj' := List.find?_eq_none.mp hnew j hmem
    simp only [hother j hji]
    simpa using hj'
  · intro name' hne
    rw [findSemIndex, findSemIndex]
    congr 1
    funext j
    by_cases hj : j = i
    · rw [hj]
      simp [hslot, Ne.symm hne]
    · simp only [hother j hj]

theorem signed_small {v : ℕ} (hv : v = 0 ∨ v = 1) : signed 32 (v : ℤ) = v := by
  apply Int.bmod_eq_of_le
  · norm_num
  · norm_num
    omega

/-- `my_sem_open` of a new name that succeeds. -/
theorem mySemOpen_new {v : ℕ} (hv : v = 0 ∨ v = 1) (hnew : findSemIndex u.registry name = none)
    (h : mySemOpen u name v copied = (1, u')) :
    ∃ id, id ≠ 0 ∧ semAlloc u.kernel v = (id, u'.kernel) ∧ semTarget u'.registry name = some id ∧
      ∀ name', name' ≠ name → findSemIndex u'.registry name' = findSemIndex u.registry name' ∧
        semTarget u'.registry name' = semTarget u.registry name' := by
  unfold mySemOpen at h
  rw [signed_small hv, hnew] at h
  dsimp only at h
  split at h
  · cases h
  · rename_i i hfree
    rw [syscallSemCreate, if_neg (not_lt.mpr (Int.natCast_nonneg v))] at h
    obtain ⟨id, k, halloc⟩ : ∃ id k, semAlloc u.kernel v = (id, k) := ⟨_, _, rfl⟩
    rw [halloc] at h
    dsimp only at h
    split at h
    · cases h
    · rename_i hid
      split at h
      · cases h
        obtain ⟨hself, hother⟩ := findSemIndex_update id hfree hnew
        have hslot : u.registry.names i = none := by simpa using List.find?_some hfree
        refine ⟨id, hid, halloc, ?_, fun name' hne => ⟨hother name' hne, ?_⟩⟩
        · rw [semTarget, hself, Option.map_some]
          exact congrArg some (Function.update_self ..)
        · rw [semTarget, semTarget, hother name' hne]
          refine Option.map_congr fun j hj => Function.update_of_ne ?_ ..
          rintro rfl
          rw [findSemIndex_name hj] at hslot
          cases hslot
      · cases h

end Names

section Results

variable {ids : MvarIds} {k : Kernel} {t : List IpcEvent} {m : Mvar} {V : Sems}
  {s : OnePlace ℕ UInt8} {p : ℕ} {u : System}

/-- Nobody has begun to write. -/
theorem MvarReady.inv (h : MvarReady k ids) (hsound : Sound k V) : MvarInv ids [] (mvarStarted k) := by
  have hnew : ∀ {a : ℕ} {v : ℤ}, semValue k a = some v ∧ WaitQueue k a [] → V a = some ⟨v, []⟩ := by
    rintro a v ⟨hvalue, hqueue⟩
    obtain ⟨u, hu, hnil⟩ := hsound.sems.waitQueue_iff.mp hqueue
    have hv := hsound.sems.semValue hu
    rw [hvalue, Option.some_inj] at hv
    rw [hu, hv, ← hnil]
  obtain ⟨v, hv⟩ := hsound.shows h.entry h.pipe.1
  obtain ⟨hread, hwrite, hcount⟩ := h.empty
  refine ⟨⟨V, ⟨⟨1, []⟩, ⟨0, []⟩, [], fun _ => .away, [], []⟩, hsound, ⟨hnew h.slots, hnew h.items, h.own.1,
    h.own.2.1, ⟨v, hv, hv.pipe ▸ h.pipe.2, ⟨?_, ?_, ?_⟩, ?_⟩, fun _ => rfl, rfl, rfl⟩,
    .start rfl rfl (fun _ => rfl) ⟨rfl, rfl⟩⟩, fun _ _ _ hm => absurd hm List.not_mem_nil⟩
  · rw [← hv.pipe, hcount]
    exact Nat.zero_le _
  · rw [← hv.pipe, hread]
    exact Nat.succ_pos _
  · rw [← hv.pipe, hread, hwrite, hcount]
    rfl
  · rw [← hv.pipe, Pipe.contents, hcount]
    rfl

theorem WriterAt.working_iff (here : WriterAt) : here.Working ↔ here.stage.Writes := by
  cases here with
  | postMutex written => cases written <;> exact Iff.rfl
  | _ => exact Iff.rfl

theorem ReaderAt.working_iff (here : ReaderAt) : here.Working ↔ here.stage.Reads := by
  cases here with
  | postMutex got => cases got <;> exact Iff.rfl
  | _ => exact Iff.rfl

theorem ReaderAt.not_writes (here : ReaderAt) : ¬here.stage.Writes := by
  cases here with
  | postMutex got => cases got <;> exact id
  | _ => exact id

theorem WriterAt.not_reads (here : WriterAt) : ¬here.stage.Reads := by
  cases here with
  | postMutex written => cases written <;> exact id
  | _ => exact id

/-- The holders that write for the channel are the writers with a token. -/
theorem Mirrors.writerHolds (h : Mirrors ids t m V s) (hsound : Sound m.ipc.kernel V) (hinv : s.Inv) :
    WriterHolds ids m p ↔ s.Holds p ∧ (s.stage p).Writes := by
  have hqueue : (∀ L, WaitQueue m.ipc.kernel ids.slots L → p ∉ L) ↔ p ∉ s.slots.queue := by
    constructor
    · exact fun hp => hp _ (hsound.sems.waitQueue_iff.mpr ⟨_, h.slots, rfl⟩)
    · intro hp L hL
      obtain ⟨u, hu, rfl⟩ := hsound.sems.waitQueue_iff.mp hL
      obtain rfl := Option.some.inj (h.slots.symm.trans hu)
      exact hp
  have hjob : (∃ writerId here, m.ipc.thread p = .writer writerId here ∧ here.Working) ↔
      (s.stage p).Writes := by
    rw [h.stage p]
    cases m.ipc.thread p with
    | outside => exact iff_of_false (by simp) id
    | writer writerId here =>
        rw [MvarJob.stage, ← here.working_iff]
        constructor
        · rintro ⟨_, _, heq, hw⟩
          cases heq
          exact hw
        · exact fun hw => ⟨_, _, rfl, hw⟩
    | reader here => exact iff_of_false (by simp) here.not_writes
  rw [WriterHolds, hqueue, hjob]
  constructor
  · rintro ⟨hw, hp⟩
    refine ⟨⟨fun haway => ?_, ?_⟩, hw⟩
    · rw [haway] at hw
      exact hw
    · rintro (hm | hm)
      · exact hp hm
      · rw [hinv.itemsQueue p hm] at hw
        exact hw
  · rintro ⟨⟨-, hwaits⟩, hw⟩
    exact ⟨hw, fun hm => hwaits (.inl hm)⟩

/-- The holders that read for the channel are the readers with a token. -/
theorem Mirrors.readerHolds (h : Mirrors ids t m V s) (hsound : Sound m.ipc.kernel V) (hinv : s.Inv) :
    ReaderHolds ids m p ↔ s.Holds p ∧ (s.stage p).Reads := by
  have hqueue : (∀ L, WaitQueue m.ipc.kernel ids.items L → p ∉ L) ↔ p ∉ s.items.queue := by
    constructor
    · exact fun hp => hp _ (hsound.sems.waitQueue_iff.mpr ⟨_, h.items, rfl⟩)
    · intro hp L hL
      obtain ⟨u, hu, rfl⟩ := hsound.sems.waitQueue_iff.mp hL
      obtain rfl := Option.some.inj (h.items.symm.trans hu)
      exact hp
  have hjob : (∃ here, m.ipc.thread p = .reader here ∧ here.Working) ↔ (s.stage p).Reads := by
    rw [h.stage p]
    cases m.ipc.thread p with
    | outside => exact iff_of_false (by simp) id
    | writer writerId here => exact iff_of_false (by simp) here.not_reads
    | reader here =>
        rw [MvarJob.stage, ← here.working_iff]
        constructor
        · rintro ⟨_, heq, hw⟩
          cases heq
          exact hw
        · exact fun hw => ⟨_, rfl, hw⟩
  rw [ReaderHolds, hqueue, hjob]
  constructor
  · rintro ⟨hw, hp⟩
    refine ⟨⟨fun haway => ?_, ?_⟩, hw⟩
    · rw [haway] at hw
      exact hw
    · rintro (hm | hm)
      · rw [hinv.slotsQueue p hm] at hw
        exact hw
      · exact hp hm
  · rintro ⟨⟨-, hwaits⟩, hw⟩
    exact ⟨hw, fun hm => hwaits (.inr hm)⟩

/-- If the three calls of `my_sem_open` in `mvarCmd` register new names and there is a pipe, then the
names resolve to three different semaphores with one token, none and one, and the pipe is empty:
what `mvarCmd` leaves is ready for its writers and readers. -/
theorem mvarStart_ready {c : MvarCall} {numWriters numReaders : ℕ} {r : MvarRun} {n : MvarNames}
    {u₁ u₂ u₃ : System} {start : Ipc Unit} {before : List IpcEvent} (hquiet : Quiet start.kernel)
    (run₀ : IpcRun freeProgram start before ⟨u.kernel, fun _ => ()⟩) (hcaller : Caller u.kernel)
    (hn : mvarNames c.pid = some n) (hslots : findSemIndex u.registry n.slots = none)
    (hitems : findSemIndex u.registry n.items = none) (hmutex : findSemIndex u.registry n.mutex = none)
    (h₁ : mySemOpen u n.slots 1 (c.copied n.slots) = (1, u₁))
    (h₂ : mySemOpen u₁ n.items 0 (c.copied n.items) = (1, u₂))
    (h₃ : mySemOpen u₂ n.mutex 1 (c.copied n.mutex) = (1, u₃)) (hpipe : (pipeCreate u₃.kernel).1 ≠ 0)
    (h : mvarStart u c numWriters numReaders = some r) :
    ∃ ids, MvarReady r.system.kernel ids ∧ mvarCreate u.kernel = some (ids, r.system.kernel) ∧
      semTarget r.system.registry n.slots = some ids.slots ∧
      semTarget r.system.registry n.items = some ids.items ∧
      semTarget r.system.registry n.mutex = some ids.mutex := by
  obtain ⟨V, hsound, -⟩ := run₀.invariant (I := fun _ _ _ => True) hquiet.sound trivial
    fun _ _ _ _ _ _ _ _ _ _ => trivial
  have hnames : n.slots ≠ n.items ∧ n.slots ≠ n.mutex ∧ n.items ≠ n.mutex := by
    rw [mvarNames_eq, Option.some_inj] at hn
    rw [← hn]
    decide
  obtain ⟨hsi, hsm, him⟩ := hnames
  obtain ⟨slots, hslots₀, halloc₁, htarget₁, hkept₁⟩ := mySemOpen_new (.inr rfl) hslots h₁
  obtain ⟨items, hitems₀, halloc₂, htarget₂, hkept₂⟩ := mySemOpen_new (.inl rfl)
    ((hkept₁ _ hsi.symm).1.trans hitems) h₂
  obtain ⟨mutex, hmutex₀, halloc₃, htarget₃, hkept₃⟩ := mySemOpen_new (.inr rfl)
    ((hkept₂ _ him.symm).1.trans ((hkept₁ _ hsm.symm).1.trans hmutex)) h₃
  obtain ⟨V₁, hs₁, -, -, -, -, hc₁⟩ := semAlloc_sound hsound hcaller halloc₁ hslots₀
  obtain ⟨V₂, hs₂, -, -, -, -, hc₂⟩ := semAlloc_sound hs₁ hc₁ halloc₂ hitems₀
  obtain ⟨V₃, hs₃, -, -, -, -, hc₃⟩ := semAlloc_sound hs₂ hc₂ halloc₃ hmutex₀
  obtain ⟨id, k₄, hcreate, htables, -, hcase⟩ := pipeCreate_spec hs₃.tables
  rw [hcreate] at hpipe
  obtain ⟨hid, -, i, hi, q, -, hused, -, -, hq, hpipes⟩ := hcase.resolve_left fun hr => hpipe hr.1
  have hentry : pipeGetById k₄ id = some i := by
    have hfound := pipeGetById_of_used htables hi (by rw [hpipes, Function.update_self, hused])
    rw [hpipes, Function.update_self, hq, ← hid] at hfound
    exact hfound
  have hsystem : r.system = ⟨k₄, u₃.registry⟩ := by
    rw [mvarStart, hn, Option.bind_eq_bind, Option.bind_some, h₁] at h
    dsimp only at h
    rw [h₂] at h
    dsimp only at h
    rw [h₃] at h
    dsimp only at h
    rw [hcreate] at h
    dsimp only at h
    rw [if_neg (by decide), if_neg (by decide), if_neg (by decide), if_neg hpipe] at h
    obtain ⟨processes, -, hlast⟩ := Option.bind_eq_some_iff.mp h
    cases hlast
    rfl
  have hmade : mvarCreate u.kernel = some (⟨slots, items, mutex, id, i⟩, k₄) := by
    have hnone : ¬(slots = 0 ∨ items = 0 ∨ mutex = 0 ∨ id = 0) := by
      simp only [not_or]
      exact ⟨hslots₀, hitems₀, hmutex₀, hpipe⟩
    have h₁' : semAlloc u.kernel 1 = (slots, u₁.kernel) := halloc₁
    have h₂' : semAlloc u₁.kernel 0 = (items, u₂.kernel) := halloc₂
    have h₃' : semAlloc u₂.kernel 1 = (mutex, u₃.kernel) := halloc₃
    simp only [mvarCreate, h₁', h₂', h₃', hcreate, if_neg hnone, hentry, Option.map_some]
  rw [hsystem]
  refine ⟨⟨slots, items, mutex, id, i⟩, (mvarCreate_ready hsound hcaller hmade).2, hmade, ?_, ?_,
    htarget₃⟩
  · rw [(hkept₃ _ hsm).2, (hkept₂ _ hsi).2, htarget₁]
  · rw [(hkept₃ _ him).2, htarget₂]

/-- Any number of writers and readers of one MVar, in any order: the tokens of `slots` and `items`
and of the processes between them are one token; the pipe holds one letter at most, and a turn of
`sys_read` neither waits for the mutex of the pipe nor for a letter; the letters on the screen are
the first ones written, all but one at most. -/
theorem mvar_holds_one_letter {start m₀ : Ipc Unit} {before : List IpcEvent}
    (hquiet : Quiet start.kernel) (run₀ : IpcRun freeProgram start before m₀)
    (ready : MvarReady m₀.kernel ids) (run : MvarRuns ids (mvarStarted m₀.kernel) t m) :
    (∃ (v w : ℤ) (W R : List ℕ), semValue m.ipc.kernel ids.slots = some v ∧
      semValue m.ipc.kernel ids.items = some w ∧ W.Nodup ∧ R.Nodup ∧
      (∀ p, p ∈ W ↔ WriterHolds ids m p) ∧ (∀ p, p ∈ R ↔ ReaderHolds ids m p) ∧
      v + w + W.length + R.length = 1) ∧
    (m.ipc.kernel.pipes ids.entry).count ≤ 1 ∧
    (∃ v, semValue m.ipc.kernel (m.ipc.kernel.pipes ids.entry).mutex = some v ∧ 0 < v) ∧
    (∀ p n r, ⟨p, .readTurn ids.entry n, r⟩ ∈ t → ∃ b, r = .moved b) ∧
    m.shown <+: inserted ids.entry t ∧ (inserted ids.entry t).length ≤ m.shown.length + 1 := by
  obtain ⟨V₀, hsound₀, -⟩ := run₀.invariant (I := fun _ _ _ => True) hquiet.sound trivial
    fun _ _ _ _ _ _ _ _ _ _ => trivial
  obtain ⟨⟨V, s, hsound, hmirrors, hinv⟩, hmoving⟩ := run.inv (ready.inv hsound₀) ready.entry ready.apart
  obtain ⟨W, R, hW, hR, hwriters, hreaders, htokens⟩ := hinv.tokens
  obtain ⟨hchannel, hprefix, hlength⟩ := hinv.bounds
  obtain ⟨v, hv, -, -, hcontents⟩ := hmirrors.pipe
  rw [hmirrors.written, hmirrors.shown] at hprefix hlength
  refine ⟨⟨_, _, W, R, hsound.sems.semValue hmirrors.slots, hsound.sems.semValue hmirrors.items, hW, hR,
    fun p => ?_, fun p => ?_, htokens⟩, ?_, ?_, hmoving, hprefix, hlength⟩
  · rw [hwriters, hmirrors.writerHolds hsound hinv]
  · rw [hreaders, hmirrors.readerHolds hsound hinv]
  · rw [← hcontents] at hchannel
    rw [hv.pipe]
    exact (RingBuffer.length_contents ..).symm.trans_le hchannel
  · obtain ⟨w, hpos, hw⟩ := hsound.mutex ready.entry (hv.pipe ▸ hv.used)
    exact ⟨w, hsound.sems.semValue hw, hpos⟩

end Results

section Example

instance (ids : MvarIds) (writerId : UInt8) :
    (here : WriterAt) → (c : IpcCall) → Decidable (WriterCalls ids writerId here c)
  | .pipeOpen, _ => inferInstanceAs (Decidable (_ ∨ _))
  | .pipeDup, _ | .waitSlots, _ | .waitMutex, _ | .write, _ | .postMutex _, _ | .postItems, _
  | .postSlots _, _ => inferInstanceAs (Decidable (_ = _))
  | .returned, _ => .isFalse id

instance (ids : MvarIds) : (here : ReaderAt) → (c : IpcCall) → Decidable (ReaderCalls ids here c)
  | .pipeOpen, _ => inferInstanceAs (Decidable (_ ∨ _))
  | .pipeDup, _ | .waitItems, _ | .waitMutex, _ | .read, _ | .postMutex _, _ | .postSlots, _
  | .postItems _, _ => inferInstanceAs (Decidable (_ = _))
  | .putChar _, _ | .returned, _ => .isFalse id

/-- The calls of the writers and readers. -/
def mvarAct (ids : MvarIds) : Acts MvarJob
  | _, .outside, _ => none
  | _, .writer writerId here, c =>
      if WriterCalls ids writerId here c then some fun r => .writer writerId (here.next r) else none
  | _, .reader here, c =>
      if ReaderCalls ids here c then some fun r => .reader (here.next r) else none

inductive MvarMove where
  | ipc (move : IpcMove)
  | enter (p : ℕ) (writerId : Option UInt8)
  | putChar

def MvarMove.entry : Option UInt8 → MvarJob
  | some writerId => .writer writerId .pipeOpen
  | none => .reader .pipeOpen

def mvarMove (ids : MvarIds) (m : Mvar) : MvarMove → Option (Option IpcEvent × Mvar)
  | .ipc move => (ipcMove (mvarAct ids) m.ipc move).map fun (e, ipc) => (e, ⟨ipc, m.shown⟩)
  | .enter p writerId =>
      if m.ipc.thread p = .outside then
        some (none, ⟨⟨m.ipc.kernel, update m.ipc.thread p (MvarMove.entry writerId)⟩, m.shown⟩)
      else none
  | .putChar =>
      match m.ipc.thread m.ipc.kernel.current with
      | .reader (.putChar b) =>
          if Caller m.ipc.kernel then
            some (none, ⟨⟨m.ipc.kernel,
              update m.ipc.thread m.ipc.kernel.current (.reader (.postMutex true))⟩, m.shown ++ [b]⟩)
          else none
      | _ => none

def mvarPlay (ids : MvarIds) : List MvarMove → Mvar → Option (List IpcEvent × Mvar)
  | [], m => some ([], m)
  | move :: moves, m => do
      let (e, m₁) ← mvarMove ids m move
      let (t, m₂) ← mvarPlay ids moves m₁
      some (e.toList ++ t, m₂)

variable {ids : MvarIds} {m m' start : Mvar} {e : Option IpcEvent} {t t' : List IpcEvent} {k k' : Kernel}

theorem mvarAct_program (p : ℕ) (j : MvarJob) (c : IpcCall) (next : Reply → MvarJob)
    (h : mvarAct ids p j c = some next) : mvarProgram ids p j c next := by
  cases j with
  | outside => cases h
  | writer writerId here =>
      simp only [mvarAct] at h
      split at h
      · rename_i calls
        cases h
        exact .writer calls
      · cases h
  | reader here =>
      simp only [mvarAct] at h
      split at h
      · rename_i calls
        cases h
        exact .reader calls
      · cases h

theorem mvarMove_step {move : MvarMove} (h : mvarMove ids m move = some (e, m')) : MvarStep ids m e m' := by
  cases move with
  | ipc move =>
      obtain ⟨⟨e, ipc⟩, hmove, hlast⟩ := Option.map_eq_some_iff.mp h
      cases hlast
      exact .ipc (ipcMove_step mvarAct_program hmove)
  | enter p writerId =>
      simp only [mvarMove] at h
      split at h
      · rename_i houtside
        cases h
        refine .enter houtside ?_
        cases writerId with
        | some writerId => exact .writer writerId
        | none => exact .reader
      · cases h
  | putChar =>
      simp only [mvarMove] at h
      split at h
      · rename_i b hhere
        split at h
        · rename_i hcaller
          cases h
          exact .putChar hcaller hhere
        · cases h
      · cases h

theorem MvarRuns.play (run : MvarRuns ids start t m) {moves : List MvarMove}
    (h : mvarPlay ids moves m = some (t', m')) : MvarRuns ids start (t ++ t') m' := by
  induction moves generalizing m t t' with
  | nil =>
      cases h
      rw [List.append_nil]
      exact run
  | cons move moves ih =>
      obtain ⟨⟨e, m₁⟩, hmove, h⟩ := Option.bind_eq_some_iff.mp h
      obtain ⟨⟨t₁, m₂⟩, hrest, hlast⟩ := Option.bind_eq_some_iff.mp h
      cases hlast
      rw [← List.append_assoc]
      exact ih (run.snoc (mvarMove_step hmove)) hrest

/-- `mvarCreate` is four calls of one process. -/
theorem mvarCreate_run (h : mvarCreate k = some (ids, k')) (hc : Caller k) :
    ∃ t, IpcRun freeProgram ⟨k, fun _ => ()⟩ t ⟨k', fun _ => ()⟩ := by
  have hcall : ∀ {t : List IpcEvent} {k₁ k₂ : Kernel} {c : IpcCall} {n : ℕ},
      IpcRun freeProgram ⟨k, fun _ => ()⟩ t ⟨k₁, fun _ => ()⟩ → Caller k₁ → IpcPromise k₁ c →
        ipcExec k₁ c = some (k₂, .value n) → ∃ t, IpcRun freeProgram ⟨k, fun _ => ()⟩ t ⟨k₂, fun _ => ()⟩ :=
    fun run hcaller hpromise hexec =>
      ⟨_, run.call rfl hcaller (Eq.refl fun _ => ()) hpromise hexec (by simp)⟩
  have hkept : ∀ {k₁ : Kernel} (v : ℤ), Caller k₁ → Caller (semAlloc k₁ v).2 := by
    intro k₁ v hc₁
    unfold semAlloc
    split <;> exact hc₁
  unfold mvarCreate at h
  dsimp only at h
  split at h
  · cases h
  obtain ⟨entry, -, hlast⟩ := Option.map_eq_some_iff.mp h
  obtain ⟨-, hlast⟩ := Prod.mk.inj hlast
  rw [← hlast]
  have hc₁ := hkept 1 hc
  have hc₂ := hkept 0 hc₁
  obtain ⟨t₁, run₁⟩ := hcall (c := .semAlloc 1) .nil hc (by exact trivial) rfl
  obtain ⟨t₂, run₂⟩ := hcall (c := .semAlloc 0) run₁ hc₁ (by exact trivial) rfl
  obtain ⟨t₃, run₃⟩ := hcall (c := .semAlloc 1) run₂ hc₂ (by exact trivial) rfl
  exact hcall (c := .pipeCreate) run₃ (hkept 1 hc₂) (by exact trivial) rfl

/-- The shell calls `mvar 1 1` after the start of the system. -/
theorem mvarStart_ready_shell :
    ∃ k r n, shellWith [] = some k ∧ mvarNames 2 = some n ∧
      mvarStart ⟨k, .empty⟩ (mvarCallOf 2 "1" "1") 1 1 = some r ∧
      ∃ ids, MvarReady r.system.kernel ids ∧ semTarget r.system.registry n.slots = some ids.slots ∧
        semTarget r.system.registry n.items = some ids.items ∧
        semTarget r.system.registry n.mutex = some ids.mutex := by
  obtain ⟨c, hcall⟩ : ∃ c, c = mvarCallOf 2 "1" "1" := ⟨_, rfl⟩
  have hcalc : ((shellWith []).bind fun k => (mvarNames c.pid).bind fun n =>
      (mvarStart ⟨k, .empty⟩ c 1 1).map fun _ =>
        let x₁ := mySemOpen ⟨k, .empty⟩ n.slots 1 (c.copied n.slots)
        let x₂ := mySemOpen x₁.2 n.items 0 (c.copied n.items)
        let x₃ := mySemOpen x₂.2 n.mutex 1 (c.copied n.mutex)
        decide (Caller k ∧ (findSemIndex .empty n.slots = none ∧ findSemIndex .empty n.items = none ∧
          findSemIndex .empty n.mutex = none) ∧ (x₁.1 = 1 ∧ x₂.1 = 1 ∧ x₃.1 = 1) ∧
            (pipeCreate x₃.2.kernel).1 ≠ 0)) = some true := by
    rw [hcall]
    decide +kernel
  have hpid : c.pid = 2 := by rw [hcall]; rfl
  rw [← hcall]
  clear hcall
  obtain ⟨k, hstart, h₁⟩ := Option.bind_eq_some_iff.mp hcalc
  obtain ⟨n, hn, h₂⟩ := Option.bind_eq_some_iff.mp h₁
  obtain ⟨r, hr, h₃⟩ := Option.map_eq_some_iff.mp h₂
  obtain ⟨hcaller, ⟨hf₁, hf₂, hf₃⟩, ⟨ho₁, ho₂, ho₃⟩, hpipe⟩ := of_decide_eq_true h₃
  obtain ⟨-, -, hquiet, -⟩ := shellWith_reachable hstart
  obtain ⟨ids, ready, -, hslots, hitems, hmutex⟩ :=
    mvarStart_ready hquiet .nil hcaller hn hf₁ hf₂ hf₃
      (Prod.ext ho₁ rfl) (Prod.ext ho₂ rfl) (Prod.ext ho₃ rfl) hpipe hr
  exact ⟨k, r, n, hstart, hpid ▸ hn, hr, ids, ready, hslots, hitems, hmutex⟩

/-- A writer blocks on its second letter, and the reader that it has woken puts the first one on
the screen. -/
theorem mvar_holds_one_letter_shown :
    ∃ start m₀ : Ipc Unit, ∃ before ids t m, shellWith [(80, 65536), (64, 32768)] = some start.kernel ∧
      IpcRun freeProgram start before m₀ ∧ MvarRuns ids (mvarStarted m₀.kernel) t m ∧ m.shown = [65] ∧
      (∃ (v w : ℤ) (W R : List ℕ), semValue m.ipc.kernel ids.slots = some v ∧
        semValue m.ipc.kernel ids.items = some w ∧ (∀ p, p ∈ W ↔ WriterHolds ids m p) ∧
        (∀ p, p ∈ R ↔ ReaderHolds ids m p) ∧ v + w + W.length + R.length = 1) ∧
      m.shown <+: inserted ids.entry t := by
  have hcalc : ((shellWith [(80, 65536), (64, 32768)]).bind fun k =>
      (mvarCreate k).bind fun x =>
        (mvarPlay x.1 [.enter 64 (some 65), .enter 80 none, .ipc (.switch 64),
          .ipc (.call (.pipeOpen 1 false)), .ipc (.call (.pipeOpen 1 true)),
          .ipc (.call (.semWait 2)), .ipc (.switch 80), .ipc (.call (.pipeOpen 1 false)),
          .ipc (.call (.pipeOpen 1 false)), .ipc (.block (.semWait 3) 64),
          .ipc (.call (.semWait 4)), .ipc (.call (.writeTurn 0 65)), .ipc (.call (.semSignal 4)),
          .ipc (.call (.semSignal 3)), .ipc (.block (.semWait 2) 80), .ipc (.call (.semWait 4)),
          .ipc (.call (.readTurn 0 0)), .putChar] (mvarStarted x.2)).map fun y =>
            decide (Caller k ∧ y.2.shown = [65])) = some true := by
    decide +kernel
  obtain ⟨k, hstart, h₁⟩ := Option.bind_eq_some_iff.mp hcalc
  obtain ⟨⟨ids, k'⟩, hcreate, h₂⟩ := Option.bind_eq_some_iff.mp h₁
  obtain ⟨⟨t, m⟩, hplay, h₃⟩ := Option.map_eq_some_iff.mp h₂
  obtain ⟨hcaller, hshown⟩ := of_decide_eq_true h₃
  obtain ⟨-, -, hquiet, -⟩ := shellWith_reachable hstart
  obtain ⟨before, run₀⟩ := mvarCreate_run hcreate hcaller
  obtain ⟨-, ready⟩ := mvarCreate_ready hquiet.sound hcaller hcreate
  have run : MvarRuns ids (mvarStarted k') ([] ++ t) m := MvarRuns.nil.play hplay
  obtain ⟨⟨v, w, W, R, hv, hw, -, -, hwriters, hreaders, htokens⟩, -, -, -, hprefix, -⟩ :=
    mvar_holds_one_letter hquiet run₀ ready run
  exact ⟨_, _, before, ids, _, m, hstart, run₀, run, hshown,
    ⟨v, w, W, R, hv, hw, hwriters, hreaders, htokens⟩, hprefix⟩

end Example

end Userland
end SoKernel
