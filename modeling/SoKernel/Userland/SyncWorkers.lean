import Mathlib.Algebra.BigOperators.Group.Finset.Basic
import SoKernel.Lib.Lock
import SoKernel.Userland.MvarRuns

/-!
# The test of synchronisation

Embedding of `my_process_inc` and `slowInc` of `test_sync.c`, and a machine in which any number of
these processes add to one variable, among processes that do not use their semaphore. An addition
is made in two steps, and a context switch may come between them. A process that has left its loop
closes the semaphore, which takes the name from the registry for the other processes as well; the
runs here end before the first of these calls.
-/

namespace SoKernel.Userland

open Function (update)
open SoKernel

section Model

/-- The loop of `satoi`, with the result so far. -/
def satoiDigits : ℤ → List Char → ℤ
  | res, [] => res
  | res, c :: cs =>
      if c < '0' ∨ '9' < c then 0
      else satoiDigits (signed 64 (res * 10 + c.toNat - '0'.toNat)) cs

def satoi : List Char → ℤ
  | '-' :: cs => signed 64 (-satoiDigits 0 cs)
  | cs => satoiDigits 0 cs

/-- The arguments of `my_process_inc` that pass its checks. -/
structure IncArgs where
  n : ℕ
  inc : ℤ
  useSem : Bool
  pos : 0 < n
  deriving DecidableEq

/-- The checks of `my_process_inc`. -/
def incArgs : List (List Char) → Option IncArgs
  | [times, step, useSem] =>
      let n := unsigned 64 (satoi times)
      let inc := signed 8 (satoi step)
      let useSem := signed 8 (satoi useSem)
      if hn : 0 < n then
        if inc = 0 then none
        else if useSem < 0 then none
        else some ⟨n, inc, decide (useSem ≠ 0), hn⟩
      else none
  | _ => none

/-- The next step of `my_process_inc`. -/
inductive IncAt where
  | semOpen
  | semWait
  /-- `slowInc` reads the variable. -/
  | load
  /-- `slowInc` writes the variable. -/
  | store (aux : ℕ)
  | semPost
  /-- Behind the loop. -/
  | left
  deriving DecidableEq

inductive IncJob where
  | outside
  /-- With the index of the loop. -/
  | worker (args : IncArgs) (i : ℕ) (next : IncAt)
  deriving DecidableEq

/-- A turn of the loop begins. -/
def IncArgs.turn (a : IncArgs) : IncAt := if a.useSem then .semWait else .load

/-- The test of the loop behind a turn. -/
def IncArgs.endTurn (a : IncArgs) (i : ℕ) : IncJob :=
  .worker a (i + 1) (if i + 1 < a.n then a.turn else .left)

/-- The process begins. The test of its loop succeeds the first time. -/
def IncArgs.start (a : IncArgs) : IncJob := .worker a 0 (if a.useSem then .semOpen else .load)

/-- The calls of the processes on semaphores. The name of the semaphore is registered, so that
`my_sem_open` returns `1`. -/
inductive IncActs (sem : ℕ) : IncJob → IpcCall → (Reply → IncJob) → Prop
  | other {c : IpcCall} (apart : ¬Touches sem c) : IncActs sem .outside c fun _ => .outside
  | semOpen {a : IncArgs} {i : ℕ} :
      IncActs sem (.worker a i .semOpen) (.semOpen sem) fun _ => .worker a i a.turn
  | semWait {a : IncArgs} {i : ℕ} :
      IncActs sem (.worker a i .semWait) (.semWait sem) fun _ => .worker a i .load
  | semPost {a : IncArgs} {i : ℕ} :
      IncActs sem (.worker a i .semPost) (.semSignal sem) fun _ => a.endTurn i

def incProgram (sem : ℕ) : Program IncJob := fun _ => IncActs sem

/-- The processes with the variable that they share. -/
structure SyncTest where
  ipc : Ipc IncJob
  global : ℤ

/-- The test with one process somewhere else. -/
def SyncTest.goOn (m : SyncTest) (p : ℕ) (job : IncJob) (global : ℤ) : SyncTest :=
  ⟨⟨m.ipc.kernel, update m.ipc.thread p job⟩, global⟩

inductive SyncStep (sem : ℕ) (m : SyncTest) : Option IpcEvent → SyncTest → Prop
  /-- A call, or a context switch. -/
  | ipc {e : Option IpcEvent} {ipc' : Ipc IncJob} (step : IpcStep (incProgram sem) m.ipc e ipc') :
      SyncStep sem m e ⟨ipc', m.global⟩
  /-- `my_process_inc` begins. -/
  | enter {p : ℕ} {argv : List (List Char)} {a : IncArgs} (outside : m.ipc.thread p = .outside)
      (args : incArgs argv = some a) : SyncStep sem m none (m.goOn p a.start m.global)
  | load {a : IncArgs} {i : ℕ} (caller : Caller m.ipc.kernel)
      (here : m.ipc.thread m.ipc.kernel.current = .worker a i .load) :
      SyncStep sem m none (m.goOn m.ipc.kernel.current
        (.worker a i (.store (unsigned 64 m.global))) m.global)
  | store {a : IncArgs} {i aux : ℕ} (caller : Caller m.ipc.kernel)
      (here : m.ipc.thread m.ipc.kernel.current = .worker a i (.store aux)) :
      SyncStep sem m none (m.goOn m.ipc.kernel.current
        (if a.useSem then .worker a i .semPost else a.endTurn i)
        (signed 64 (unsigned 64 (aux + a.inc))))

inductive SyncRuns (sem : ℕ) (start : SyncTest) : List IpcEvent → SyncTest → Prop
  | nil : SyncRuns sem start [] start
  | snoc {trace : List IpcEvent} {m : SyncTest} {e : Option IpcEvent} {m' : SyncTest}
      (run : SyncRuns sem start trace m) (step : SyncStep sem m e m') :
      SyncRuns sem start (trace ++ e.toList) m'

/-- The state in which the `my_sem_open` of the first process has made the semaphore, and returns. -/
def syncBegin (k : Kernel) (p : ℕ) (a : IncArgs) : SyncTest :=
  ⟨⟨k, update (fun _ => .outside) p (.worker a 0 a.turn)⟩, 0⟩

/-- The arguments of the four processes of `test_sync`, in the order in which they are made. -/
def testSyncArgv : List (List Char) → List (List (List Char))
  | [n, useSem] =>
      let argvDec := [n, "-1".toList, useSem]
      let argvInc := [n, "1".toList, useSem]
      [argvDec, argvInc, argvDec, argvInc]
  | _ => []

end Model

section Observation

/-- Between the wait for the semaphore and the post. -/
def IncAt.Working : IncAt → Prop
  | .load | .store _ | .semPost => True
  | .semOpen | .semWait | .left => False

def IncJob.Working : IncJob → Prop
  | .outside => False
  | .worker _ _ here => here.Working

/-- What a process has added so far. -/
def IncJob.added : IncJob → ℤ
  | .outside => 0
  | .worker a i .semPost => a.inc * (i + 1)
  | .worker a i _ => a.inc * i

/-- The process was granted the semaphore and has not posted since. -/
def SyncTest.Holds (m : SyncTest) (sem p : ℕ) : Prop :=
  (m.ipc.thread p).Working ∧ ∀ L, WaitQueue m.ipc.kernel sem L → p ∉ L

/-- All processes use the semaphore. -/
def SyncTest.Synchronized (m : SyncTest) : Prop :=
  ∀ p a i here, m.ipc.thread p = .worker a i here → a.useSem = true

/-- Processes with these arguments, and no others, have begun, and all are behind their loops. -/
def SyncTest.Done (m : SyncTest) (argvs : List (List (List Char))) : Prop :=
  ∃ ps : List ℕ, ps.Nodup ∧ (∀ p, p ∈ ps ↔ m.ipc.thread p ≠ .outside) ∧
    ps.Forall₂ (fun p argv => ∃ a i, incArgs argv = some a ∧ m.ipc.thread p = .worker a i .left) argvs

end Observation

section Invariant

variable {sem : ℕ} {m m' : SyncTest} {e : Option IpcEvent} {t : List IpcEvent} {V V' : Sems}
  {s : CountingSemaphore ℕ} {p q i : ℕ} {a : IncArgs} {here : IncAt} {job : IncJob}
  {thread : ℕ → IncJob} {global : ℤ}

theorem coe_unsigned (bits : ℕ) (v : ℤ) : (unsigned bits v : ℤ) = v % (2 ^ bits : ℕ) := by
  rw [unsigned, Int.toNat_of_nonneg (Int.emod_nonneg _ (by positivity))]
  push_cast
  rfl

/-- Reading a value, adding to it on words and writing it back. -/
theorem signed_addition (bits : ℕ) (v w : ℤ) :
    signed bits (unsigned bits (unsigned bits (signed bits v) + w)) = signed bits (v + w) := by
  rw [coe_unsigned, coe_unsigned, signed, signed, signed, Int.emod_bmod, Int.emod_add_bmod,
    Int.bmod_add_bmod]

/-- What the processes know about their loops and about the variable. -/
structure Sums (thread : ℕ → IncJob) (global : ℤ) : Prop where
  turn : ∀ p a i here, thread p = .worker a i here → i < a.n ∧ here ≠ .left ∨ i = a.n ∧ here = .left
  loaded : ∀ p a i aux, thread p = .worker a i (.store aux) → aux = unsigned 64 global
  total : ∃ W : Finset ℕ, (∀ p, p ∈ W ↔ thread p ≠ .outside) ∧
    global = signed 64 (∑ p ∈ W, (thread p).added)

/-- One process goes on, and the sum changes by what it has added. -/
theorem sum_added (thread : ℕ → IncJob) (p : ℕ) (job : IncJob) {W : Finset ℕ}
    (hW : p ∉ W → thread p = .outside) :
    ∑ q ∈ insert p W, (update thread p job q).added =
      ∑ q ∈ W, (thread q).added + (job.added - (thread p).added) := by
  have hmem := Finset.mem_insert_self p W
  have hold : ∑ q ∈ insert p W, (thread q).added = ∑ q ∈ W, (thread q).added := by
    apply Finset.sum_insert_of_eq_zero_if_notMem
    intro hp
    rw [hW hp]
    rfl
  have hrest : ∑ q ∈ (insert p W).erase p, (update thread p job q).added =
      ∑ q ∈ (insert p W).erase p, (thread q).added := by
    apply Finset.sum_congr rfl
    intro q hq
    rw [Function.update_of_ne (Finset.ne_of_mem_erase hq)]
  rw [← hold, ← Finset.add_sum_erase _ _ hmem, ← Finset.add_sum_erase _ (fun q => (thread q).added) hmem,
    hrest, Function.update_self]
  ring

theorem Sums.start : Sums (fun _ => .outside) 0 := by
  refine ⟨fun _ _ _ _ hp => ?_, fun _ _ _ _ hp => ?_, ∅, fun p => ?_, rfl⟩
  · cases hp
  · cases hp
  · simp

/-- One process goes on. -/
theorem Sums.goOn {global' : ℤ} (h : Sums thread global)
    (hturn : i < a.n ∧ here ≠ .left ∨ i = a.n ∧ here = .left)
    (hloaded : ∀ aux, here = .store aux → aux = unsigned 64 global')
    (hothers : ∀ q b j aux, q ≠ p → thread q = .worker b j (.store aux) → aux = unsigned 64 global')
    (hglobal : ∀ v, global = signed 64 v →
      global' = signed 64 (v + ((IncJob.worker a i here).added - (thread p).added))) :
    Sums (update thread p (.worker a i here)) global' := by
  obtain ⟨W, hW, htotal⟩ := h.total
  have hout : p ∉ W → thread p = .outside := fun hp => not_not.mp fun hne => hp ((hW p).mpr hne)
  refine ⟨fun q b j there hq => ?_, fun q b j aux hq => ?_, insert p W, fun q => ?_, ?_⟩
  · by_cases hqp : q = p
    · rw [hqp, Function.update_self] at hq
      cases hq
      exact hturn
    · rw [Function.update_of_ne hqp] at hq
      exact h.turn q b j there hq
  · by_cases hqp : q = p
    · rw [hqp, Function.update_self] at hq
      cases hq
      exact hloaded aux rfl
    · rw [Function.update_of_ne hqp] at hq
      exact hothers q b j aux hqp hq
  · rw [Finset.mem_insert, hW]
    by_cases hqp : q = p
    · rw [hqp, Function.update_self]
      simp
    · rw [Function.update_of_ne hqp]
      simp [hqp]
  · rw [sum_added thread p _ hout]
    exact hglobal _ htotal

/-- One process goes on without a write. -/
theorem Sums.keep (h : Sums thread global)
    (hturn : i < a.n ∧ here ≠ .left ∨ i = a.n ∧ here = .left)
    (hloaded : ∀ aux, here = .store aux → aux = unsigned 64 global)
    (hadded : (IncJob.worker a i here).added = (thread p).added) :
    Sums (update thread p (.worker a i here)) global := by
  apply h.goOn hturn hloaded fun q b j aux _ hq => h.loaded q b j aux hq
  intro v hv
  rw [hadded, sub_self, add_zero, hv]

/-- The semaphore is a lock around the additions, and a process that waits for it will read the
variable next. -/
structure Guarded (thread : ℕ → IncJob) (s : CountingSemaphore ℕ) : Prop where
  lock : (Lock.mk s fun p => (thread p).Working).Inv
  loads : ∀ p ∈ s.queue, ∃ a i, thread p = .worker a i .load

theorem Guarded.start : Guarded (fun _ => .outside) ⟨1, []⟩ := by
  refine ⟨.start rfl fun p => id, fun p hp => ?_⟩
  cases hp

theorem Guarded.keep (h : Guarded thread s) (hp : p ∉ s.queue)
    (hsame : job.Working ↔ (thread p).Working) : Guarded (update thread p job) s := by
  refine ⟨h.lock.congr rfl fun q => ?_, fun q hq => ?_⟩
  · dsimp only
    by_cases hqp : q = p
    · rw [hqp, Function.update_self, hsame]
    · rw [Function.update_of_ne hqp]
  · rw [Function.update_of_ne (ne_of_mem_of_not_mem hq hp)]
    exact h.loads q hq

theorem Guarded.take (h : Guarded thread s) (hout : ¬(thread p).Working) (pos : 0 < s.value) :
    Guarded (update thread p (.worker a i .load)) s.take := by
  refine ⟨(h.lock.take hout pos).congr rfl fun q => ?_, fun q hq => ?_⟩
  · dsimp only
    by_cases hqp : q = p
    · rw [hqp, Function.update_self]
      exact iff_of_true trivial (.inl rfl)
    · rw [Function.update_of_ne hqp]
      simp [hqp]
  · rw [Function.update_of_ne (ne_of_mem_of_not_mem hq (h.lock.out hout))]
    exact h.loads q hq

theorem Guarded.await (h : Guarded thread s) (hout : ¬(thread p).Working) (zero : ¬0 < s.value) :
    Guarded (update thread p (.worker a i .load)) (s.enqueue p) := by
  refine ⟨(h.lock.await hout zero).congr rfl fun q => ?_, fun q hq => ?_⟩
  · dsimp only
    by_cases hqp : q = p
    · rw [hqp, Function.update_self]
      exact iff_of_true trivial (.inl rfl)
    · rw [Function.update_of_ne hqp]
      simp [hqp]
  · by_cases hqp : q = p
    · exact ⟨a, i, by rw [hqp, Function.update_self]⟩
    · rw [Function.update_of_ne hqp]
      exact h.loads q ((List.mem_append.mp hq).resolve_right fun hm => hqp (List.mem_singleton.mp hm))

theorem Guarded.post (h : Guarded thread s) (hin : (thread p).Working) (hp : p ∉ s.queue)
    (hjob : ¬job.Working) : Guarded (update thread p job) s.signal := by
  refine ⟨(h.lock.post ⟨hin, hp⟩).congr rfl fun q => ?_, fun q hq => ?_⟩
  · dsimp only
    by_cases hqp : q = p
    · rw [hqp, Function.update_self]
      simp [hjob]
    · rw [Function.update_of_ne hqp]
      simp [hqp]
  · have hold := CountingSemaphore.mem_of_mem_signal hq
    rw [Function.update_of_ne (ne_of_mem_of_not_mem hold hp)]
    exact h.loads q hold

/-- Before the end of its loop a process has turns left. -/
theorem Sums.lt (h : Sums thread global) (hp : thread p = .worker a i here) (hne : here ≠ .left) :
    i < a.n :=
  ((h.turn p a i here hp).resolve_right fun hleft => hne hleft.2).1

/-- What holds in every state of a run. -/
structure SyncInv (sem : ℕ) (m : SyncTest) : Prop where
  sums : Sums m.ipc.thread m.global
  guarded : ∃ V s, Sound m.ipc.kernel V ∧ V sem = some s ∧ ¬PipeSem m.ipc.kernel sem ∧
    Guarded m.ipc.thread s

/-- The test of the loop behind a turn, for a process that uses the semaphore. -/
theorem IncArgs.endTurn_spec (hsem : a.useSem = true) (hi : i < a.n) :
    ∃ here, a.endTurn i = .worker a (i + 1) here ∧ ¬here.Working ∧ (∀ aux, here ≠ .store aux) ∧
      (IncJob.worker a (i + 1) here).added = a.inc * (i + 1) ∧
      (i + 1 < a.n ∧ here ≠ .left ∨ i + 1 = a.n ∧ here = .left) := by
  have hadded : a.inc * ((i + 1 : ℕ) : ℤ) = a.inc * (i + 1) := by
    push_cast
    rfl
  by_cases hlast : i + 1 < a.n
  · refine ⟨.semWait, ?_, id, by simp, hadded, .inl ⟨hlast, by simp⟩⟩
    rw [IncArgs.endTurn, if_pos hlast, IncArgs.turn, if_pos hsem]
  · refine ⟨.left, ?_, id, by simp, hadded, .inr ⟨by omega, rfl⟩⟩
    rw [IncArgs.endTurn, if_neg hlast]

/-- A call that does not block. -/
theorem Guarded.call {k k' : Kernel} {c : IpcCall} {r : Reply} {next : Reply → IncJob}
    (hguarded : Guarded thread s) (hsums : Sums thread global) (hs : V sem = some s)
    (hown : ¬PipeSem k sem) (hout : p ∉ s.queue)
    (hall : ∀ a i here, thread p = .worker a i here → a.useSem = true)
    (acts : IncActs sem (thread p) c next) (effect : IpcEffect k V k' V' c r) :
    Sums (update thread p (next r)) global ∧
      ∃ s', V' sem = some s' ∧ Guarded (update thread p (next r)) s' := by
  obtain ⟨job, hjob⟩ : ∃ job, thread p = job := ⟨_, rfl⟩
  rw [hjob] at acts
  cases acts with
  | other apart =>
      rw [← hjob, Function.update_eq_self]
      exact ⟨hsums, s, effect.semKept hs hown apart, hguarded⟩
  | @semOpen a i =>
      have hturn : a.turn = .semWait := if_pos (hall a i _ hjob)
      rw [hturn]
      refine ⟨hsums.keep (.inl ⟨hsums.lt hjob (by simp), by simp⟩) (by simp) ?_, s,
        effect.semKept hs hown id, hguarded.keep hout ?_⟩
      · rw [hjob]
        rfl
      · rw [hjob]
        exact Iff.rfl
  | @semWait a i =>
      refine ⟨hsums.keep (.inl ⟨hsums.lt hjob (by simp), by simp⟩) (by simp) ?_, ?_⟩
      · rw [hjob]
        rfl
      cases effect with
      | semMissing none =>
          rw [hs] at none
          cases none
      | semTaken _ entry pos _ _ sems =>
          obtain rfl := Option.some.inj (hs.symm.trans entry)
          refine ⟨_, sems ▸ Function.update_self .., hguarded.take ?_ pos⟩
          rw [hjob]
          exact id
  | @semPost a i =>
      obtain ⟨here, hnext, hidle, hloaded, hadded, hturn⟩ :=
        IncArgs.endTurn_spec (hall a i _ hjob) (hsums.lt hjob (by simp))
      rw [hnext]
      refine ⟨hsums.keep hturn (fun aux he => absurd he (hloaded aux)) ?_, ?_⟩
      · rw [hjob]
        exact hadded
      cases effect with
      | semSignal _ _ _ sems =>
          rw [Sems.signal_of_some hs] at sems
          refine ⟨_, sems ▸ Function.update_self .., hguarded.post ?_ hout hidle⟩
          rw [hjob]
          trivial

/-- A call that blocks. -/
theorem Guarded.block {k : Kernel} {c : IpcCall} {b : ℕ} {u : CountingSemaphore ℕ}
    {next : Reply → IncJob} (hguarded : Guarded thread s) (hsums : Sums thread global)
    (hs : V sem = some s) (hown : ¬PipeSem k sem) (acts : IncActs sem (thread p) c next)
    (waits : WaitsFor k c b) (entry : V b = some u) (empty : ¬0 < u.value)
    (sems : V' = update V b (some (u.enqueue p))) :
    Sums (update thread p (next .blocked)) global ∧
      ∃ s', V' sem = some s' ∧ Guarded (update thread p (next .blocked)) s' := by
  obtain ⟨job, hjob⟩ : ∃ job, thread p = job := ⟨_, rfl⟩
  rw [hjob] at acts
  cases acts with
  | other apart =>
      rw [← hjob, Function.update_eq_self]
      exact ⟨hsums, s, sems ▸ waits.semKept hs hown apart, hguarded⟩
  | @semWait a i =>
      obtain ⟨rfl, -⟩ := waits
      obtain rfl := Option.some.inj (hs.symm.trans entry)
      refine ⟨hsums.keep (.inl ⟨hsums.lt hjob (by simp), by simp⟩) (by simp) ?_, _,
        sems ▸ Function.update_self .., hguarded.await ?_ empty⟩
      · rw [hjob]
        rfl
      · rw [hjob]
        exact id
  | semOpen | semPost => exact waits.elim

/-- The step lemma for calls and context switches. -/
theorem SyncInv.ipc (h : SyncInv sem m) (hall : m.Synchronized) {ipc' : Ipc IncJob}
    (step : IpcStep (incProgram sem) m.ipc e ipc') : SyncInv sem ⟨ipc', m.global⟩ := by
  obtain ⟨hsums, V, s, hsound, hs, hown, hguarded⟩ := h
  obtain ⟨V', hsound', effect⟩ := step.effect hsound
  have hown' := step.own hsound hs hown
  have hout := hsound.away sem s hs
  suffices hgoal : Sums ipc'.thread m.global ∧ ∃ s', V' sem = some s' ∧ Guarded ipc'.thread s' by
    obtain ⟨hsums', s', hs', hguarded'⟩ := hgoal
    exact ⟨hsums', V', s', hsound', hs', hown', hguarded'⟩
  cases effect with
  | call next caller acts promise steers effect thread runs =>
      rw [thread]
      exact hguarded.call hsums hs hown hout (hall _) acts effect
  | block next b u caller acts waits entry empty sems _ _ _ _ thread =>
      rw [thread]
      exact hguarded.block hsums hs hown acts waits entry empty sems
  | switch _ sems thread =>
      rw [thread]
      exact ⟨hsums, s, sems ▸ hs, hguarded⟩

/-- A process goes on by itself. -/
theorem SyncInv.local (h : SyncInv sem m) {global' : ℤ} (hp : ∀ L, WaitQueue m.ipc.kernel sem L → p ∉ L)
    (hsame : (IncJob.worker a i here).Working ↔ (m.ipc.thread p).Working)
    (hsums : Sums (update m.ipc.thread p (.worker a i here)) global') :
    SyncInv sem (m.goOn p (.worker a i here) global') := by
  obtain ⟨-, V, s, hsound, hs, hown, hguarded⟩ := h
  exact ⟨hsums, V, s, hsound, hs, hown,
    hguarded.keep (hp _ (hsound.sems.waitQueue_iff.mpr ⟨s, hs, rfl⟩)) hsame⟩

theorem SyncInv.away (h : SyncInv sem m) {L : List ℕ} (hL : WaitQueue m.ipc.kernel sem L) :
    m.ipc.kernel.current ∉ L ∧ ∀ p ∈ L, ∃ a i, m.ipc.thread p = .worker a i .load := by
  obtain ⟨-, V, s, hsound, hs, -, hguarded⟩ := h
  obtain ⟨s', hs', rfl⟩ := hsound.sems.waitQueue_iff.mp hL
  obtain rfl := Option.some.inj (hs.symm.trans hs')
  exact ⟨hsound.away sem s hs, hguarded.loads⟩

/-- The semaphore is a lock of the processes that are at work. -/
theorem SyncInv.lock (h : SyncInv sem m) :
    ∃ s, semValue m.ipc.kernel sem = some s.value ∧ WaitQueue m.ipc.kernel sem s.queue ∧
      (Lock.mk s fun p => (m.ipc.thread p).Working).Inv ∧
      ∀ p, m.Holds sem p ↔ (Lock.mk s fun p => (m.ipc.thread p).Working).Holds p := by
  obtain ⟨-, V, s, hsound, hs, -, hguarded⟩ := h
  have hqueue : WaitQueue m.ipc.kernel sem s.queue := hsound.sems.waitQueue_iff.mpr ⟨s, hs, rfl⟩
  refine ⟨s, hsound.sems.semValue hs, hqueue, hguarded.lock, fun p => ?_⟩
  refine and_congr_right' ⟨fun hp => hp _ hqueue, fun hp L hL => ?_⟩
  obtain ⟨s', hs', rfl⟩ := hsound.sems.waitQueue_iff.mp hL
  obtain rfl := Option.some.inj (hs.symm.trans hs')
  exact hp

/-- The token is in the semaphore or with one process, and a process waits only for another one. -/
theorem SyncInv.token (h : SyncInv sem m) :
    (semValue m.ipc.kernel sem = some 1 ∧ (∀ p, ¬m.Holds sem p) ∧ WaitQueue m.ipc.kernel sem []) ∨
      semValue m.ipc.kernel sem = some 0 ∧ ∃ p, ∀ q, m.Holds sem q ↔ q = p := by
  obtain ⟨s, hvalue, hqueue, hlock, hholds⟩ := h.lock
  obtain ⟨hone, hnobody⟩ | ⟨hzero, p, honly⟩ := hlock.phase
  · left
    have hempty := hlock.steady.idle (hone ▸ zero_lt_one)
    exact ⟨hone ▸ hvalue, fun p hp => hnobody p ((hholds p).mp hp), hempty ▸ hqueue⟩
  · right
    exact ⟨hzero ▸ hvalue, p, fun q => (hholds q).trans (honly q)⟩

/-- A process in the middle of an addition has the semaphore. -/
theorem SyncInv.holds_store (h : SyncInv sem m) {aux : ℕ} (hp : m.ipc.thread p = .worker a i (.store aux)) :
    m.Holds sem p := by
  refine ⟨by rw [hp]; trivial, fun L hL hm => ?_⟩
  obtain ⟨b, j, hload⟩ := (h.away hL).2 p hm
  rw [hp] at hload
  cases hload

theorem SyncInv.exclusive (h : SyncInv sem m) (hp : m.Holds sem p) (hq : m.Holds sem q) : p = q := by
  obtain ⟨s, -, -, hlock, hholds⟩ := h.lock
  exact hlock.exclusive ((hholds p).mp hp) ((hholds q).mp hq)

/-- The steps of `slowInc`. -/
theorem SyncInv.load (h : SyncInv sem m) (hp : m.ipc.thread m.ipc.kernel.current = .worker a i .load) :
    SyncInv sem (m.goOn m.ipc.kernel.current (.worker a i (.store (unsigned 64 m.global))) m.global) := by
  apply h.local fun L hL => (h.away hL).1
  · rw [hp]
    exact Iff.rfl
  · apply h.sums.keep (.inl ⟨h.sums.lt hp (by simp), by simp⟩)
    · rintro aux ⟨rfl⟩
      rfl
    · rw [hp]
      rfl

theorem SyncInv.store (h : SyncInv sem m) {aux : ℕ}
    (hp : m.ipc.thread m.ipc.kernel.current = .worker a i (.store aux)) :
    SyncInv sem (m.goOn m.ipc.kernel.current (.worker a i .semPost)
      (signed 64 (unsigned 64 (aux + a.inc)))) := by
  apply h.local fun L hL => (h.away hL).1
  · rw [hp]
    exact Iff.rfl
  · apply h.sums.goOn (.inl ⟨h.sums.lt hp (by simp), by simp⟩) (by simp)
    · intro q b j aux' hne hq
      exact absurd (h.exclusive (h.holds_store hq) (h.holds_store hp)) hne
    · intro v hv
      have hadded : (IncJob.worker a i .semPost).added -
          (m.ipc.thread m.ipc.kernel.current).added = a.inc := by
        rw [hp, IncJob.added, IncJob.added]
        · ring
        · simp
      rw [hadded, h.sums.loaded _ _ _ _ hp, hv]
      exact signed_addition 64 v a.inc

/-- A process keeps its arguments. -/
theorem SyncStep.keeps (step : SyncStep sem m e m') (hp : m.ipc.thread p = .worker a i here) :
    ∃ j there, m'.ipc.thread p = .worker a j there := by
  have hgo : ∀ q job, (q = p → ∃ j there, job = .worker a j there) →
      ∃ j there, update m.ipc.thread q job p = .worker a j there := by
    intro q job hjob
    by_cases hqp : q = p
    · obtain ⟨j, there, rfl⟩ := hjob hqp
      exact ⟨j, there, by rw [hqp, Function.update_self]⟩
    · exact ⟨i, here, by rw [Function.update_of_ne (Ne.symm hqp), hp]⟩
  have hacts : ∀ {c : IpcCall} {next : Reply → IncJob} {job : IncJob} (r : Reply),
      IncActs sem job c next → job = .worker a i here → ∃ j there, next r = .worker a j there := by
    rintro c next job r acts rfl
    cases acts <;> exact ⟨_, _, rfl⟩
  cases step with
  | ipc step =>
      cases step with
      | call _ acts => exact hgo _ _ fun hq => hacts _ acts (hq ▸ hp)
      | block _ acts => exact hgo _ _ fun hq => hacts _ acts (hq ▸ hp)
      | switch | resched => exact ⟨i, here, hp⟩
  | enter outside =>
      refine hgo _ _ fun hq => ?_
      rw [← hq, outside] at hp
      cases hp
  | load _ current =>
      refine hgo _ _ fun hq => ?_
      rw [← hq, current] at hp
      cases hp
      exact ⟨_, _, rfl⟩
  | store _ current =>
      refine hgo _ _ fun hq => ?_
      rw [← hq, current] at hp
      cases hp
      split <;> exact ⟨_, _, rfl⟩

theorem SyncStep.synchronized (step : SyncStep sem m e m') (h : m'.Synchronized) : m.Synchronized := by
  intro p a i here hp
  obtain ⟨j, there, hp'⟩ := step.keeps hp
  exact h p a j there hp'

theorem SyncInv.step (h : SyncInv sem m) (hall : m'.Synchronized) (step : SyncStep sem m e m') :
    SyncInv sem m' := by
  have hold := step.synchronized hall
  cases step with
  | ipc step => exact h.ipc hold step
  | @enter p argv a outside args =>
      have hsem : a.useSem = true := hall p a 0 _ (Function.update_self ..)
      rw [IncArgs.start, if_pos hsem]
      apply h.local
      · intro L hL hm
        obtain ⟨b, j, hload⟩ := (h.away hL).2 p hm
        rw [outside] at hload
        cases hload
      · rw [outside]
        exact Iff.rfl
      · apply h.sums.keep (.inl ⟨a.pos, by simp⟩) (by simp)
        rw [outside]
        exact mul_zero a.inc
  | load _ here => exact h.load here
  | store _ here =>
      rw [if_pos (hold _ _ _ _ here)]
      exact h.store here

theorem SyncRuns.inv {start : SyncTest} (run : SyncRuns sem start t m) (h : SyncInv sem start)
    (hall : m.Synchronized) : SyncInv sem m := by
  induction run with
  | nil => exact h
  | snoc _ step ih => exact (ih (step.synchronized hall)).step hall step

end Invariant

section Results

variable {sem : ℕ} {m : SyncTest} {t : List IpcEvent} {start m₀ m₁ : Ipc Unit}
  {before : List IpcEvent} {first : ℕ} {a : IncArgs} {argvs : List (List (List Char))}

/-- What a process adds if it is let through to its end. -/
def promised (argv : List (List Char)) : ℤ := (incArgs argv).elim 0 fun a => a.inc * a.n

/-- What the decrementing processes take away the incrementing ones add. -/
theorem promised_testSync (argv : List (List Char)) :
    ((testSyncArgv argv).map promised).sum = 0 := by
  have hdec : signed 8 (satoi "-1".toList) = -1 := by decide
  have hinc : signed 8 (satoi "1".toList) = 1 := by decide
  have hopposite : ∀ n useSem, promised [n, "-1".toList, useSem] + promised [n, "1".toList, useSem] = 0 := by
    intro n useSem
    simp only [promised, incArgs, hdec, hinc]
    by_cases hn : 0 < unsigned 64 (satoi n)
    · by_cases hrefused : signed 8 (satoi useSem) < 0
      · simp [hn, hrefused]
      · simp [hn, hrefused]
    · simp [hn]
  rw [testSyncArgv.eq_def]
  split
  · simp only [List.map_cons, List.map_nil, List.sum_cons, List.sum_nil, add_zero]
    rw [← add_assoc, hopposite, add_zero]
  · rfl

/-- All have added what they were to add. -/
theorem Sums.done (h : Sums m.ipc.thread m.global) (hdone : m.Done argvs) :
    m.global = signed 64 (argvs.map promised).sum := by
  obtain ⟨ps, hnodup, hps, hall⟩ := hdone
  obtain ⟨W, hW, htotal⟩ := h.total
  have hset : W = ps.toFinset := by
    ext p
    rw [hW, List.mem_toFinset, hps]
  have hsum : (ps.map fun p => (m.ipc.thread p).added).sum = (argvs.map promised).sum := by
    clear hnodup hps hset
    induction hall with
    | nil => rfl
    | cons hp _ ih =>
        obtain ⟨a, i, hargs, hleft⟩ := hp
        have hi : i = a.n := ((h.turn _ a i _ hleft).resolve_left fun hne => hne.2 rfl).1
        rw [List.map_cons, List.map_cons, List.sum_cons, List.sum_cons, ih, hleft, promised, hargs, hi]
        rfl
  rw [htotal, hset, List.sum_toFinset _ hnodup, hsum]

variable (hquiet : Quiet start.kernel) (run₀ : IpcRun freeProgram start before m₀)
  (create : IpcStep freeProgram m₀ (some ⟨first, .semAlloc 1, .value sem⟩) m₁) (hsem : sem ≠ 0)
  (run : SyncRuns sem (syncBegin m₁.kernel first a) t m) (hall : m.Synchronized)
include hquiet run₀ create hsem run hall

theorem SyncRuns.reached : SyncInv sem m := by
  obtain ⟨V, hsound, -⟩ := run₀.invariant (I := fun _ _ _ => True) hquiet.sound trivial
    fun _ _ _ _ _ _ _ _ _ _ => trivial
  obtain ⟨V₁, hsound₁, hown, hs⟩ := create.semCreated hsound hsem
  have hold : (syncBegin m₁.kernel first a).Synchronized := by
    clear create
    induction run with
    | nil => exact hall
    | snoc _ step ih => exact ih (step.synchronized hall)
  have hfirst : (syncBegin m₁.kernel first a).ipc.thread first = .worker a 0 a.turn :=
    Function.update_self (f := fun _ => IncJob.outside) ..
  have hturn : a.turn = .semWait := if_pos (hold first a 0 _ hfirst)
  apply run.inv _ hall
  rw [syncBegin, hturn]
  refine ⟨Sums.start.keep (.inl ⟨a.pos, by simp⟩) (by simp) (mul_zero a.inc), V₁, _, hsound₁, hs, hown, ?_⟩
  exact Guarded.start.keep List.not_mem_nil Iff.rfl

/-- In every state before the first `my_sem_close`: the semaphore has its token and nobody waits,
or one process alone is between its wait and its post; and the variable is the sum of what the
processes have added, so that no addition is lost. -/
theorem sync_loses_no_addition :
    ((semValue m.ipc.kernel sem = some 1 ∧ (∀ p, ¬m.Holds sem p) ∧ WaitQueue m.ipc.kernel sem []) ∨
      semValue m.ipc.kernel sem = some 0 ∧ ∃ p, ∀ q, m.Holds sem q ↔ q = p) ∧
    ∃ W : Finset ℕ, (∀ p, p ∈ W ↔ m.ipc.thread p ≠ .outside) ∧
      m.global = signed 64 (∑ p ∈ W, (m.ipc.thread p).added) := by
  have hinv := run.reached hquiet run₀ create hsem hall
  exact ⟨hinv.token, hinv.sums.total⟩

/-- When the four processes of `test_sync` have left their loops, and none has closed the semaphore
yet, the variable is `0` again. -/
theorem test_sync_ends_at_zero (argv : List (List Char)) (hdone : m.Done (testSyncArgv argv)) :
    m.global = 0 := by
  have hinv := run.reached hquiet run₀ create hsem hall
  rw [hinv.sums.done hdone, promised_testSync]
  rfl

end Results

section Example

/-- The calls of the processes, one at each place. -/
def incAct (sem : ℕ) : Acts IncJob
  | _, .worker a i .semOpen, c => if c = .semOpen sem then some fun _ => .worker a i a.turn else none
  | _, .worker a i .semWait, c => if c = .semWait sem then some fun _ => .worker a i .load else none
  | _, .worker a i .semPost, c => if c = .semSignal sem then some fun _ => a.endTurn i else none
  | _, _, _ => none

inductive SyncMove where
  | ipc (move : IpcMove)
  | enter (p : ℕ) (argv : List (List Char))
  /-- The next step of `slowInc`. -/
  | slowInc

def syncMove (sem : ℕ) (m : SyncTest) : SyncMove → Option (Option IpcEvent × SyncTest)
  | .ipc move => (ipcMove (incAct sem) m.ipc move).map fun (e, ipc) => (e, ⟨ipc, m.global⟩)
  | .enter p argv =>
      if m.ipc.thread p = .outside then
        (incArgs argv).map fun a => (none, m.goOn p a.start m.global)
      else none
  | .slowInc =>
      let p := m.ipc.kernel.current
      if Caller m.ipc.kernel then
        match m.ipc.thread p with
        | .worker a i .load => some (none, m.goOn p (.worker a i (.store (unsigned 64 m.global))) m.global)
        | .worker a i (.store aux) =>
            some (none, m.goOn p (if a.useSem then .worker a i .semPost else a.endTurn i)
              (signed 64 (unsigned 64 (aux + a.inc))))
        | _ => none
      else none

def syncPlay (sem : ℕ) : List SyncMove → SyncTest → Option (List IpcEvent × SyncTest)
  | [], m => some ([], m)
  | move :: moves, m => do
      let (e, m₁) ← syncMove sem m move
      let (t, m₂) ← syncPlay sem moves m₁
      some (e.toList ++ t, m₂)

variable {sem p : ℕ} {m m' start : SyncTest} {e : Option IpcEvent} {t t' : List IpcEvent}

theorem incAct_program (p : ℕ) (j : IncJob) (c : IpcCall) (next : Reply → IncJob)
    (h : incAct sem p j c = some next) : incProgram sem p j c next := by
  cases j with
  | outside => cases h
  | worker a i here =>
      cases here with
      | load | store aux | left => cases h
      | _ =>
          simp only [incAct] at h
          split at h
          · rename_i hc
            subst hc
            cases h
            constructor
          · cases h

theorem syncMove_step {move : SyncMove} (h : syncMove sem m move = some (e, m')) :
    SyncStep sem m e m' := by
  cases move with
  | ipc move =>
      obtain ⟨⟨e, ipc⟩, hmove, hlast⟩ := Option.map_eq_some_iff.mp h
      cases hlast
      exact .ipc (ipcMove_step incAct_program hmove)
  | enter p argv =>
      simp only [syncMove] at h
      split at h
      · rename_i houtside
        obtain ⟨a, hargs, hlast⟩ := Option.map_eq_some_iff.mp h
        cases hlast
        exact .enter houtside hargs
      · cases h
  | slowInc =>
      simp only [syncMove] at h
      split at h
      · rename_i hcaller
        split at h
        · rename_i hhere
          cases h
          exact .load hcaller hhere
        · rename_i hhere
          cases h
          exact .store hcaller hhere
        · cases h
      · cases h

theorem SyncRuns.play (run : SyncRuns sem start t m) {moves : List SyncMove}
    (h : syncPlay sem moves m = some (t', m')) : SyncRuns sem start (t ++ t') m' := by
  induction moves generalizing m t t' with
  | nil =>
      cases h
      rw [List.append_nil]
      exact run
  | cons move moves ih =>
      obtain ⟨⟨e, m₁⟩, hmove, h⟩ := Option.bind_eq_some_iff.mp h
      obtain ⟨⟨t₁, m₂⟩, hrest, hlast⟩ := Option.bind_eq_some_iff.mp h
      cases hlast
      rw [← List.append_assoc]
      exact ih (run.snoc (syncMove_step hmove)) hrest

def SyncMove.entered : SyncMove → Option ℕ
  | .enter p _ => some p
  | _ => none

/-- A process begins by its own move only. -/
theorem syncMove_outside {move : SyncMove} (h : syncMove sem m move = some (e, m'))
    (hne : move.entered ≠ some p) (hp : m.ipc.thread p = .outside) : m'.ipc.thread p = .outside := by
  have hgo : ∀ q job, (q = p → job = .outside) → update m.ipc.thread q job p = .outside := by
    intro q job hjob
    by_cases hqp : q = p
    · rw [hqp, Function.update_self, hjob hqp]
    · rw [Function.update_of_ne (Ne.symm hqp), hp]
  have hacts : ∀ {c : IpcCall} {next : Reply → IncJob} (r : Reply),
      IncActs sem (m.ipc.thread m.ipc.kernel.current) c next → m.ipc.kernel.current = p →
        next r = .outside := by
    intro c next r acts hq
    rw [hq, hp] at acts
    cases acts
    rfl
  cases move with
  | ipc move =>
      obtain ⟨⟨e, ipc⟩, hmove, hlast⟩ := Option.map_eq_some_iff.mp h
      cases hlast
      cases ipcMove_step incAct_program hmove with
      | call _ acts => exact hgo _ _ (hacts _ acts)
      | block _ acts => exact hgo _ _ (hacts _ acts)
      | switch | resched => exact hp
  | enter q argv =>
      simp only [syncMove] at h
      split at h
      · obtain ⟨a, -, hlast⟩ := Option.map_eq_some_iff.mp h
        cases hlast
        exact hgo _ _ fun hq => absurd (congrArg some hq) hne
      · cases h
  | slowInc =>
      have hhere : ∀ {a : IncArgs} {i : ℕ} {here : IncAt},
          m.ipc.thread m.ipc.kernel.current = .worker a i here → m.ipc.kernel.current ≠ p := by
        rintro a i here hworker hq
        rw [hq, hp] at hworker
        cases hworker
      simp only [syncMove] at h
      split at h
      · split at h
        · rename_i hload
          cases h
          exact hgo _ _ fun hq => absurd hq (hhere hload)
        · rename_i hstore
          cases h
          exact hgo _ _ fun hq => absurd hq (hhere hstore)
        · cases h
      · cases h

theorem syncPlay_outside {moves : List SyncMove} (h : syncPlay sem moves m = some (t, m'))
    (hne : p ∉ moves.filterMap SyncMove.entered) (hp : m.ipc.thread p = .outside) :
    m'.ipc.thread p = .outside := by
  induction moves generalizing m t with
  | nil =>
      cases h
      exact hp
  | cons move moves ih =>
      obtain ⟨⟨e, m₁⟩, hmove, h⟩ := Option.bind_eq_some_iff.mp h
      obtain ⟨⟨t₁, m₂⟩, hrest, hlast⟩ := Option.bind_eq_some_iff.mp h
      cases hlast
      rw [List.mem_filterMap] at hne
      apply ih hrest
      · rw [List.mem_filterMap]
        exact fun hm => hne (hm.imp fun _ hx => ⟨List.mem_cons_of_mem _ hx.1, hx.2⟩)
      · apply syncMove_outside hmove _ hp
        exact fun hx => hne ⟨move, List.mem_cons_self, hx⟩

/-- `test_synchro 1`: the first process is in the middle of its addition while the three others
begin and wait. -/
def testSyncMoves : List SyncMove :=
  let dec := ["1".toList, "-1".toList, "1".toList]
  let inc := ["1".toList, "1".toList, "1".toList]
  let turn := [.slowInc, .slowInc, .ipc (.call (.semSignal 2))]
  [.ipc (.call (.semWait 2)), .slowInc, .enter 64 inc, .enter 80 dec, .enter 96 inc,
    .ipc (.switch 64), .ipc (.call (.semOpen 2)), .ipc (.block (.semWait 2) 80),
    .ipc (.call (.semOpen 2)), .ipc (.block (.semWait 2) 96), .ipc (.call (.semOpen 2)),
    .ipc (.block (.semWait 2) 48), .slowInc, .ipc (.call (.semSignal 2)), .ipc (.switch 64)] ++
    turn ++ [.ipc (.switch 80)] ++ turn ++ [.ipc (.switch 96)] ++ turn

theorem testSyncMoves_run :
    ∃ start m₁ : Ipc Unit, ∃ a t m, Quiet start.kernel ∧
      IpcStep freeProgram start (some ⟨48, .semAlloc 1, .value 2⟩) m₁ ∧
      SyncRuns 2 (syncBegin m₁.kernel 48 a) t m ∧ m.Synchronized ∧
      m.Done (testSyncArgv ["1".toList, "1".toList]) := by
  have hcalc : ((shellWith [(96, 81920), (80, 65536), (64, 32768)]).bind fun k =>
      (ipcMove freeAct ⟨k, fun _ => ()⟩ (.call (.semAlloc 1))).bind fun x =>
        (incArgs ["1".toList, "-1".toList, "1".toList]).bind fun dec =>
          (incArgs ["1".toList, "1".toList, "1".toList]).bind fun inc =>
            (syncPlay 2 testSyncMoves (syncBegin x.2.kernel 48 dec)).map fun y =>
              decide (x.1 = some ⟨48, .semAlloc 1, .value 2⟩ ∧ dec.useSem = true ∧ inc.useSem = true ∧
                (y.2.ipc.thread 48 = .worker dec 1 .left ∧ y.2.ipc.thread 64 = .worker inc 1 .left) ∧
                y.2.ipc.thread 80 = .worker dec 1 .left ∧ y.2.ipc.thread 96 = .worker inc 1 .left)) =
      some true := by
    decide +kernel
  obtain ⟨k, hstart, h₁⟩ := Option.bind_eq_some_iff.mp hcalc
  obtain ⟨⟨e, m₁⟩, hcreate, h₂⟩ := Option.bind_eq_some_iff.mp h₁
  obtain ⟨dec, hdec, h₃⟩ := Option.bind_eq_some_iff.mp h₂
  obtain ⟨inc, hinc, h₄⟩ := Option.bind_eq_some_iff.mp h₃
  obtain ⟨⟨t, m⟩, hplay, h₅⟩ := Option.map_eq_some_iff.mp h₄
  obtain ⟨he, hdecSem, hincSem, ⟨h48, h64⟩, h80, h96⟩ := of_decide_eq_true h₅
  dsimp only at he h48 h64 h80 h96
  subst he
  obtain ⟨-, -, hquiet, -⟩ := shellWith_reachable hstart
  have hothers : ∀ p, p ∉ [48, 64, 80, 96] → m.ipc.thread p = .outside := by
    intro p hp
    simp only [List.mem_cons, List.not_mem_nil, or_false, not_or] at hp
    obtain ⟨hp48, hp64, hp80, hp96⟩ := hp
    apply syncPlay_outside hplay
    · have hentered : testSyncMoves.filterMap SyncMove.entered = [64, 80, 96] := rfl
      rw [hentered]
      simp [hp64, hp80, hp96]
    · exact Function.update_of_ne (f := fun _ => IncJob.outside) hp48 ..
  have hworkers : ∀ p ∈ [48, 64, 80, 96], ∃ a, a.useSem = true ∧
      m.ipc.thread p = .worker a 1 .left := by
    simp only [List.forall_mem_cons, List.not_mem_nil, false_imp_iff, implies_true, and_true]
    exact ⟨⟨dec, hdecSem, h48⟩, ⟨inc, hincSem, h64⟩, ⟨dec, hdecSem, h80⟩, ⟨inc, hincSem, h96⟩⟩
  refine ⟨⟨k, fun _ => ()⟩, m₁, dec, _, m, hquiet, ipcMove_step freeAct_program hcreate,
    SyncRuns.nil.play hplay, fun p a i here hp => ?_, [48, 64, 80, 96], by decide, fun p => ?_, ?_⟩
  · by_cases hmem : p ∈ [48, 64, 80, 96]
    · obtain ⟨b, hb, hworker⟩ := hworkers p hmem
      rw [hp] at hworker
      cases hworker
      exact hb
    · rw [hothers p hmem] at hp
      cases hp
  · constructor
    · intro hmem
      obtain ⟨b, -, hworker⟩ := hworkers p hmem
      simp [hworker]
    · intro hne
      by_contra hmem
      exact hne (hothers p hmem)
  · exact .cons ⟨dec, 1, hdec, h48⟩ (.cons ⟨inc, 1, hinc, h64⟩
      (.cons ⟨dec, 1, hdec, h80⟩ (.cons ⟨inc, 1, hinc, h96⟩ .nil)))

/-- After `test_synchro 1`, in which three processes had to wait, the semaphore has its token. -/
theorem sync_loses_no_addition_four :
    ∃ start m₁ : Ipc Unit, ∃ a t m, Quiet start.kernel ∧
      SyncRuns 2 (syncBegin m₁.kernel 48 a) t m ∧ m.Done (testSyncArgv ["1".toList, "1".toList]) ∧
      ∃ W : Finset ℕ, (∀ p, p ∈ W ↔ m.ipc.thread p ≠ .outside) ∧
        m.global = signed 64 (∑ p ∈ W, (m.ipc.thread p).added) := by
  obtain ⟨start, m₁, a, t, m, hquiet, create, run, hall, hdone⟩ := testSyncMoves_run
  exact ⟨start, m₁, a, t, m, hquiet, run, hdone,
    (sync_loses_no_addition hquiet .nil create (by decide) run hall).2⟩

theorem test_sync_ends_at_zero_four :
    ∃ start m₁ : Ipc Unit, ∃ a t m, Quiet start.kernel ∧
      SyncRuns 2 (syncBegin m₁.kernel 48 a) t m ∧ m.Done (testSyncArgv ["1".toList, "1".toList]) ∧
      m.global = 0 := by
  obtain ⟨start, m₁, a, t, m, hquiet, create, run, hall, hdone⟩ := testSyncMoves_run
  exact ⟨start, m₁, a, t, m, hquiet, run, hdone,
    test_sync_ends_at_zero hquiet .nil create (by decide) run hall _ hdone⟩

end Example

end SoKernel.Userland
