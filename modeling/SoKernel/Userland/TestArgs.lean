import Mathlib.Data.List.Basic
import SoKernel.Userland.SyncWorkers

/-!
# Who frees the arguments of a test

Embedding of `launch_test` of `commands_tests.c` with the wrappers of `process_wrappers.c`
as two processes that take turns. The shell copies the arguments of the command to the
heap and frees the copies, and so does the wrapper when the test returns, which not every test
does. The accesses of both to the copies are logged in the order in which they are made.
-/

namespace SoKernel.Userland

section Model

/-- A block that `copy_args` allocates: the vector or the copy of one argument. -/
inductive ArgBlock where
  | vector
  | arg (i : ℕ)
  deriving DecidableEq, Repr

inductive Access where
  | malloc (b : ArgBlock)
  | read (b : ArgBlock)
  | free (b : ArgBlock)
  deriving DecidableEq, Repr

/-- The commands that call `launch_test`. -/
inductive TestCmd where
  | testMM
  | testProceses
  | testSync
  | testNoSynchro
  | testPriority
  deriving DecidableEq, Repr

/-- One test command: its words with the name of the command first, where it runs, and the
outcomes of what it asks for. `granted` is about the calls of `malloc` in their order,
`created` about the process, `tested` lists the arguments that the test function reads, and
`waitsEnd` tells whether the processes end for which `test_prio` and `test_sync` wait. -/
structure TestLaunch where
  cmd : TestCmd
  argv : List (List Char)
  background : Bool
  granted : ℕ → Bool
  created : Bool
  tested : List ℕ
  waitsEnd : Bool

/-- The check of `argc` that each command makes. -/
def TestLaunch.usageOk (t : TestLaunch) : Bool :=
  match t.cmd with
  | .testMM | .testProceses | .testPriority => t.argv.length == 2
  | .testSync | .testNoSynchro => 2 ≤ t.argv.length && t.argv.length ≤ 3

/-- The arguments after the name of the command. -/
def TestLaunch.numArgs (t : TestLaunch) : ℕ := t.argv.length - 1

/-- The test function returns `-1` at its checks of the arguments. `test_sync` takes one argument
of the command and the flag for the semaphore, so that a second argument is one too many. -/
def TestLaunch.refused (t : TestLaunch) : Bool :=
  match t.cmd with
  | .testMM | .testProceses | .testPriority => unsigned 64 (satoi (t.argv.getD 1 [])) == 0
  | .testSync | .testNoSynchro => t.numArgs != 1

/-- The test function returns. -/
def TestLaunch.returns (t : TestLaunch) : Bool :=
  t.refused ||
    match t.cmd with
    -- `while (1)`: every `memcheck` succeeds, and no call of the kernel returns `-1`.
    | .testMM | .testProceses => false
    | .testSync | .testNoSynchro | .testPriority => t.waitsEnd

/-- A loop that frees the first copies, with what it reads before each. -/
def freeEach (reads : List Access) (n : ℕ) : List Access :=
  (List.range n).flatMap fun i => reads ++ [.free (.arg i)]

/-- The way out of `copy_args` when the copy of argument `i` finds no memory. -/
def undoCopies (i : ℕ) : List Access :=
  freeEach [.read .vector] i ++ [.free .vector]

/-- The loop of `copy_args` from argument `i` with the number of arguments that are left, and
whether it has succeeded. -/
def copyArgsLoop (granted : ℕ → Bool) : ℕ → ℕ → List Access × Bool
  | _, 0 => ([], true)
  | i, left + 1 =>
      if granted (i + 1) then
        let (rest, ok) := copyArgsLoop granted (i + 1) left
        (.malloc (.arg i) :: .read .vector :: rest, ok)
      else (.read .vector :: undoCopies i, false)

/-- `copy_args`. -/
def copyArgs (granted : ℕ → Bool) (numArgs : ℕ) : List Access × Bool :=
  if granted 0 then
    let (rest, ok) := copyArgsLoop granted 0 numArgs
    (.malloc .vector :: rest, ok)
  else ([], false)

/-- `free_args`. -/
def freeArgs (numArgs : ℕ) : List Access :=
  freeEach [.read .vector, .read .vector] numArgs ++ [.read .vector, .free .vector]

/-- `test_single_arg_wrapper`. -/
def testSingleArgWrapper (tested : List ℕ) (returns : Bool) : List Access :=
  [.read .vector, .read .vector] ++ tested.map (fun i => .read (.arg i)) ++
    if returns then [.read .vector, .free (.arg 0), .free .vector] else []

/-- `test_sync_wrapper_common`. -/
def testSyncWrapperCommon (numArgs : ℕ) (tested : List ℕ) (returns : Bool) : List Access :=
  [.read .vector, .read .vector, .read .vector] ++
    (if 1 < numArgs then [.read .vector] else []) ++ tested.map (fun i => .read (.arg i)) ++
    if returns then
      [.read .vector, .free (.arg 0), .read .vector] ++
        (if 1 < numArgs then [.read .vector, .free (.arg 1)] else []) ++ [.free .vector]
    else []

/-- The accesses of the child. -/
def TestLaunch.wrapper (t : TestLaunch) : List Access :=
  match t.cmd with
  | .testMM | .testProceses | .testPriority => testSingleArgWrapper t.tested t.returns
  | .testSync | .testNoSynchro => testSyncWrapperCommon t.numArgs t.tested t.returns

/-- Where the shell stands in `launch_test`, after `copy_args`. -/
inductive ShellAt where
  | create
  | wait
  | free (rest : List Access)
  | returned
  deriving DecidableEq, Repr

inductive ChildAt where
  | absent
  | running (rest : List Access)
  | over
  deriving DecidableEq, Repr

structure LaunchState where
  log : List Access
  shell : ShellAt
  child : ChildAt
  deriving DecidableEq, Repr

inductive LaunchEvent where
  | shell
  | child
  /-- The child is killed, at any point of its wrapper. -/
  | kill
  deriving DecidableEq, Repr

/-- The command up to the creation of the process: no other process knows the copies. -/
def TestLaunch.start (t : TestLaunch) : LaunchState :=
  if t.usageOk then
    let (log, ok) := copyArgs t.granted t.numArgs
    ⟨log, if ok then .create else .returned, .absent⟩
  else ⟨[], .returned, .absent⟩

/-- A turn of the shell. In the foreground it waits for the end of the child. -/
def shellStep (t : TestLaunch) (s : LaunchState) : Option LaunchState :=
  match s.shell with
  | .create =>
      if t.created then
        some ⟨s.log, if t.background then .free (freeArgs t.numArgs) else .wait,
          .running t.wrapper⟩
      else some { s with shell := .free (freeArgs t.numArgs) }
  | .wait => if s.child = .over then some { s with shell := .free (freeArgs t.numArgs) } else none
  | .free (a :: rest) => some { s with log := s.log ++ [a], shell := .free rest }
  | .free [] => some { s with shell := .returned }
  | .returned => none

/-- A turn of the child. A test that does not return stays in its loop or its wait. -/
def childStep (t : TestLaunch) (s : LaunchState) : Option LaunchState :=
  match s.child with
  | .running (a :: rest) => some { s with log := s.log ++ [a], child := .running rest }
  | .running [] => if t.returns then some { s with child := .over } else none
  | .absent | .over => none

def launchStep (t : TestLaunch) (s : LaunchState) : LaunchEvent → Option LaunchState
  | .shell => shellStep t s
  | .child => childStep t s
  | .kill =>
      match s.child with
      | .running _ => some { s with child := .over }
      | .absent | .over => none

/-- The states that a launch reaches by steps that are allowed in the state before them. -/
inductive LaunchReaches (t : TestLaunch) (Allowed : LaunchState → LaunchEvent → Prop) :
    LaunchState → Prop where
  | start : LaunchReaches t Allowed t.start
  | step {s s' : LaunchState} (e : LaunchEvent) (hs : LaunchReaches t Allowed s)
      (he : Allowed s e) (h : launchStep t s e = some s') : LaunchReaches t Allowed s'

/-- `launch_test` has returned and the wrapper is over. -/
def LaunchState.Complete (s : LaunchState) : Prop :=
  s.shell = .returned ∧ ∀ rest, s.child ≠ .running rest

/-- No block is freed twice or read after it was freed. -/
def SafeLog (log : List Access) : Prop :=
  log.Pairwise fun a a' => ∀ b, a = .free b → a' ≠ .free b ∧ a' ≠ .read b

/-- Every block is freed once, and none is read afterwards. -/
structure SingleOwner (s : LaunchState) : Prop where
  safe : SafeLog s.log
  freed : s.Complete → ∀ b, .malloc b ∈ s.log → .free b ∈ s.log

/-- The process of the test comes to exist. -/
def TestLaunch.Launched (t : TestLaunch) : Prop :=
  t.usageOk ∧ (copyArgs t.granted t.numArgs).2 ∧ t.created

/-- The process comes to exist, and the shell and the wrapper get in each other's way: the shell
frees while the test runs in the background, or both free when the test has returned. -/
def TestLaunch.Contested (t : TestLaunch) : Prop :=
  t.Launched ∧ (t.background ∨ t.returns)

/-- The child does not free, and makes no access once the shell has begun to free. -/
def ChildHarmless (s : LaunchState) : LaunchEvent → Prop
  | .child => (∀ b rest, s.child ≠ .running (.free b :: rest)) ∧ ∀ b, .free b ∉ s.log
  | .shell | .kill => True

end Model

section Logs

variable {log pre post : List Access} {n : ℕ}

/-- The log of a process that frees nothing. -/
def NoFree (log : List Access) : Prop := ∀ b, .free b ∉ log

/-- Only blocks of a command with `n` arguments are allocated. -/
def MallocsOf (n : ℕ) (log : List Access) : Prop :=
  ∀ b, .malloc b ∈ log → b = .vector ∨ ∃ i < n, b = .arg i

theorem NoFree.append (hpre : NoFree pre) (hpost : NoFree post) : NoFree (pre ++ post) := by
  intro b hb
  rcases List.mem_append.mp hb with hb | hb
  · exact hpre b hb
  · exact hpost b hb

/-- What comes before the first `free` does no harm. -/
theorem SafeLog.append (hpre : NoFree pre) (hpost : SafeLog post) : SafeLog (pre ++ post) := by
  have hharmless : ∀ a ∈ pre, ∀ a' : Access, ∀ b, a = .free b → a' ≠ .free b ∧ a' ≠ .read b := by
    intro a ha a' b hab
    subst hab
    exact absurd ha (hpre b)
  apply List.pairwise_append.mpr
  refine ⟨?_, hpost, fun a ha a' _ => hharmless a ha a'⟩
  exact List.pairwise_of_forall_mem_list fun a ha a' _ => hharmless a ha a'

theorem NoFree.safeLog (h : NoFree log) : SafeLog log := by
  have hsafe := SafeLog.append h List.Pairwise.nil
  rwa [List.append_nil] at hsafe

theorem mem_freeEach {reads : List Access} {a : Access} :
    a ∈ freeEach reads n ↔ (0 < n ∧ a ∈ reads) ∨ ∃ i < n, a = .free (.arg i) := by
  simp only [freeEach, List.mem_flatMap, List.mem_range, List.mem_append, List.mem_singleton]
  constructor
  · rintro ⟨i, hi, ha | ha⟩
    · exact .inl ⟨by omega, ha⟩
    · exact .inr ⟨i, hi, ha⟩
  · rintro (⟨hn, ha⟩ | ⟨i, hi, ha⟩)
    · exact ⟨0, hn, .inl ha⟩
    · exact ⟨i, hi, .inr ha⟩

/-- Every copy is freed once while only the vector is read. -/
theorem freeEach_safe {reads : List Access} (hreads : ∀ a ∈ reads, a = .read .vector) (n : ℕ) :
    SafeLog (freeEach reads n) := by
  induction n with
  | zero => exact List.Pairwise.nil
  | succ n ih =>
      have hnoFree : NoFree reads := fun b hb => by simpa using hreads _ hb
      have hsplit : freeEach reads (n + 1) = freeEach reads n ++ (reads ++ [.free (.arg n)]) := by
        simp [freeEach, List.range_succ]
      rw [hsplit]
      refine List.pairwise_append.mpr ⟨ih, SafeLog.append hnoFree (List.pairwise_singleton _ _), ?_⟩
      intro a ha a' ha' b hab
      subst hab
      rcases mem_freeEach.mp ha with ⟨-, ha⟩ | ⟨i, hi, ha⟩
      · exact absurd ha (hnoFree b)
      · cases ha
        rcases List.mem_append.mp ha' with ha' | ha'
        · rw [hreads a' ha']
          simp
        · rw [List.mem_singleton.mp ha']
          simp only [ne_eq, Access.free.injEq, ArgBlock.arg.injEq, reduceCtorEq,
            not_false_eq_true, and_true]
          omega

/-- A loop over the copies followed by the vector. -/
theorem freeEach_vector_safe (reads last : List Access)
    (hreads : ∀ a ∈ reads, a = .read .vector) (hlast : ∀ a ∈ last, a = .read .vector) (n : ℕ) :
    SafeLog (freeEach reads n ++ (last ++ [.free .vector])) := by
  have hnoFree : NoFree last := fun b hb => by simpa using hlast _ hb
  refine List.pairwise_append.mpr
    ⟨freeEach_safe hreads n, SafeLog.append hnoFree (List.pairwise_singleton _ _), ?_⟩
  intro a ha a' ha' b hab
  subst hab
  rcases mem_freeEach.mp ha with ⟨-, ha⟩ | ⟨i, hi, ha⟩
  · exact absurd (hreads _ ha) (by simp)
  · cases ha
    rcases List.mem_append.mp ha' with ha' | ha'
    · rw [hlast a' ha']
      simp
    · rw [List.mem_singleton.mp ha']
      simp

theorem freeArgs_safe (n : ℕ) : SafeLog (freeArgs n) :=
  freeEach_vector_safe _ [.read .vector] (by simp) (by simp) n

theorem undoCopies_safe (n : ℕ) : SafeLog (undoCopies n) :=
  freeEach_vector_safe _ [] (by simp) (by simp) n

/-- `free_args` frees every block of the command. -/
theorem free_mem_freeArgs {b : ArgBlock} (hb : b = .vector ∨ ∃ i < n, b = .arg i) :
    .free b ∈ freeArgs n := by
  rcases hb with rfl | ⟨i, hi, rfl⟩
  · simp [freeArgs]
  · exact List.mem_append_left _ (mem_freeEach.mpr (.inr ⟨i, hi, rfl⟩))

theorem free_mem_undoCopies {b : ArgBlock} (hb : b = .vector ∨ ∃ i < n, b = .arg i) :
    .free b ∈ undoCopies n := by
  rcases hb with rfl | ⟨i, hi, rfl⟩
  · simp [undoCopies]
  · exact List.mem_append_left _ (mem_freeEach.mpr (.inr ⟨i, hi, rfl⟩))

/-- What the loop of `copy_args` does: on success it has only allocated and read, otherwise
it ends by freeing the first `m` copies and the vector, and has allocated no others. -/
theorem copyArgsLoop_spec (granted : ℕ → Bool) (i left : ℕ) :
    ((copyArgsLoop granted i left).2 = true →
      NoFree (copyArgsLoop granted i left).1 ∧
        MallocsOf (i + left) (copyArgsLoop granted i left).1) ∧
    ((copyArgsLoop granted i left).2 = false → ∃ m pre,
      (copyArgsLoop granted i left).1 = pre ++ undoCopies m ∧ NoFree pre ∧ i ≤ m ∧
        MallocsOf m pre) := by
  induction left generalizing i with
  | zero => exact ⟨fun _ => ⟨by simp [NoFree, copyArgsLoop], by simp [MallocsOf, copyArgsLoop]⟩,
      fun h => absurd h (by simp [copyArgsLoop])⟩
  | succ left ih =>
      obtain ⟨hok, hfail⟩ := ih (i + 1)
      rw [copyArgsLoop]
      split
      · dsimp only
        constructor
        · intro h
          obtain ⟨hfree, hmalloc⟩ := hok h
          refine ⟨fun b hb => hfree b (by simpa using hb), ?_⟩
          intro b hb
          simp only [List.mem_cons, Access.malloc.injEq, reduceCtorEq, false_or] at hb
          rcases hb with rfl | hb
          · exact .inr ⟨i, by omega, rfl⟩
          · rw [← Nat.add_right_comm, Nat.add_assoc] at hmalloc
            exact hmalloc b hb
        · intro h
          obtain ⟨m, pre, heq, hfree, hm, hmalloc⟩ := hfail h
          refine ⟨m, .malloc (.arg i) :: .read .vector :: pre, by rw [heq]; rfl, ?_, by omega, ?_⟩
          · exact fun b hb => hfree b (by simpa using hb)
          · intro b hb
            simp only [List.mem_cons, Access.malloc.injEq, reduceCtorEq, false_or] at hb
            rcases hb with rfl | hb
            · exact .inr ⟨i, by omega, rfl⟩
            · exact hmalloc b hb
      · refine ⟨fun h => absurd h Bool.false_ne_true, fun _ => ⟨i, [.read .vector], rfl, ?_, Nat.le_refl _, ?_⟩⟩
        · simp [NoFree]
        · simp [MallocsOf]

/-- `copy_args` either hands over all the blocks, or has freed what it has allocated. -/
theorem copyArgs_spec (granted : ℕ → Bool) (n : ℕ) :
    ((copyArgs granted n).2 = true →
      NoFree (copyArgs granted n).1 ∧ MallocsOf n (copyArgs granted n).1) ∧
    ((copyArgs granted n).2 = false → SafeLog (copyArgs granted n).1 ∧
      ∀ b, .malloc b ∈ (copyArgs granted n).1 → .free b ∈ (copyArgs granted n).1) := by
  obtain ⟨hok, hfail⟩ := copyArgsLoop_spec granted 0 n
  rw [Nat.zero_add] at hok
  rw [copyArgs]
  split
  · dsimp only
    constructor
    · intro h
      obtain ⟨hfree, hmalloc⟩ := hok h
      refine ⟨fun b hb => hfree b (by simpa using hb), ?_⟩
      intro b hb
      rcases List.mem_cons.mp hb with hb | hb
      · exact .inl (Access.malloc.inj hb)
      · exact hmalloc b hb
    · intro h
      obtain ⟨m, pre, heq, hfree, -, hmalloc⟩ := hfail h
      rw [heq]
      have hpre : NoFree (.malloc .vector :: pre) := fun b hb => hfree b (by simpa using hb)
      refine ⟨SafeLog.append hpre (undoCopies_safe m), ?_⟩
      intro b hb
      apply List.mem_append_right (.malloc .vector :: pre)
      apply free_mem_undoCopies
      rcases List.mem_append.mp (List.cons_append ▸ hb :
        .malloc b ∈ (.malloc .vector :: pre) ++ undoCopies m) with hb | hb
      · rcases List.mem_cons.mp hb with hb | hb
        · exact .inl (Access.malloc.inj hb)
        · exact hmalloc b hb
      · simp [undoCopies, mem_freeEach] at hb
  · exact ⟨fun h => (nomatch h), fun _ => ⟨List.Pairwise.nil, by simp⟩⟩

end Logs

section Harmless

variable {t : TestLaunch} {s s' : LaunchState} {log rest : List Access} {n : ℕ} {a : Access}

/-- The log while the shell frees its copies with `rest` still to come: up to the last step
of the child nothing was freed, and from there on the log is a part of `free_args`. -/
structure Freeing (n : ℕ) (log rest : List Access) : Prop where
  split : ∃ pre before post, log = pre ++ post ∧ freeArgs n = before ++ post ++ rest ∧
    NoFree pre ∧ NoFree before
  mallocs : MallocsOf n log

theorem Freeing.start (hfree : NoFree log) (hmalloc : MallocsOf n log) :
    Freeing n log (freeArgs n) :=
  ⟨⟨log, [], [], by simp, by simp, hfree, by simp [NoFree]⟩, hmalloc⟩

theorem Freeing.shell (h : Freeing n log (a :: rest)) : Freeing n (log ++ [a]) rest := by
  obtain ⟨⟨pre, before, post, rfl, heq, hpre, hbefore⟩, hmalloc⟩ := h
  refine ⟨⟨pre, before, post ++ [a], by simp, by simp [heq], hpre, hbefore⟩, ?_⟩
  intro b hb
  rcases List.mem_append.mp hb with hb | hb
  · exact hmalloc b hb
  · -- `free_args` allocates nothing.
    have hmem : .malloc b ∈ freeArgs n := by
      rw [heq, List.mem_singleton.mp hb]
      simp
    simp [freeArgs, mem_freeEach] at hmem

theorem Freeing.child (h : Freeing n log rest) (hlog : NoFree log) (ha : NoFree [a])
    (ha' : ∀ b, a ≠ .malloc b) : Freeing n (log ++ [a]) rest := by
  obtain ⟨⟨pre, before, post, rfl, heq, -, hbefore⟩, hmalloc⟩ := h
  have hpost : NoFree post := fun b hb => hlog b (List.mem_append_right _ hb)
  refine ⟨⟨pre ++ post ++ [a], before ++ post, [], by simp, by simp [heq], hlog.append ha,
    hbefore.append hpost⟩, ?_⟩
  intro b hb
  rcases List.mem_append.mp hb with hb | hb
  · exact hmalloc b hb
  · exact absurd (List.mem_singleton.mp hb).symm (ha' b)

theorem Freeing.safe (h : Freeing n log rest) : SafeLog log := by
  obtain ⟨⟨pre, before, post, rfl, heq, hpre, -⟩, -⟩ := h
  have hpost : SafeLog (before ++ post ++ rest) := heq ▸ freeArgs_safe n
  exact SafeLog.append hpre (List.pairwise_append.mp (List.pairwise_append.mp hpost).1).2.1

/-- When `free_args` is through, it has freed every block. -/
theorem Freeing.freed (h : Freeing n log []) {b : ArgBlock} (hb : .malloc b ∈ log) :
    .free b ∈ log := by
  obtain ⟨⟨pre, before, post, rfl, heq, -, hbefore⟩, hmalloc⟩ := h
  have hmem : .free b ∈ freeArgs n := free_mem_freeArgs (hmalloc b hb)
  rw [heq, List.append_nil] at hmem
  rcases List.mem_append.mp hmem with hmem | hmem
  · exact absurd hmem (hbefore b)
  · exact List.mem_append_right _ hmem

/-- The invariant of a launch whose child does no harm. -/
structure Owned (t : TestLaunch) (s : LaunchState) : Prop where
  shell : match s.shell with
    | .create | .wait => NoFree s.log ∧ MallocsOf t.numArgs s.log
    | .free rest => Freeing t.numArgs s.log rest
    | .returned => SafeLog s.log ∧ ∀ b, .malloc b ∈ s.log → .free b ∈ s.log
  child : ∀ rest, s.child = .running rest → ∀ b, .malloc b ∉ rest

theorem Owned.singleOwner (h : Owned t s) : SingleOwner s := by
  have hshell := h.shell
  constructor
  · split at hshell
    · exact hshell.1.safeLog
    · exact hshell.1.safeLog
    · exact hshell.safe
    · exact hshell.1
  · intro hcomplete
    rw [hcomplete.1] at hshell
    exact hshell.2

theorem owned_start (t : TestLaunch) : Owned t t.start := by
  obtain ⟨hok, hfail⟩ := copyArgs_spec t.granted t.numArgs
  rw [TestLaunch.start]
  split
  · refine ⟨?_, fun rest h => (nomatch h)⟩
    dsimp only
    cases hcopied : (copyArgs t.granted t.numArgs).2 with
    | true => exact hok hcopied
    | false => exact hfail hcopied
  · exact ⟨⟨List.Pairwise.nil, by simp⟩, fun rest h => (nomatch h)⟩

/-- The wrapper allocates none of the blocks. -/
theorem wrapper_mallocs (t : TestLaunch) (b : ArgBlock) : .malloc b ∉ t.wrapper := by
  unfold TestLaunch.wrapper
  split <;> cases t.returns <;> simp [testSingleArgWrapper, testSyncWrapperCommon]

theorem Owned.shellStep (h : Owned t s) (hstep : shellStep t s = some s') : Owned t s' := by
  have hshell := h.shell
  unfold SoKernel.Userland.shellStep at hstep
  split at hstep
  · next hat =>
      rw [hat] at hshell
      split at hstep
      · cases hstep
        refine ⟨?_, fun rest hrest => ?_⟩
        · dsimp only
          cases t.background with
          | true => exact .start hshell.1 hshell.2
          | false => exact hshell
        · cases hrest
          exact wrapper_mallocs t
      · cases hstep
        exact ⟨.start hshell.1 hshell.2, h.child⟩
  · next hat =>
      rw [hat] at hshell
      split at hstep
      · cases hstep
        exact ⟨.start hshell.1 hshell.2, h.child⟩
      · cases hstep
  · next a rest hat =>
      rw [hat] at hshell
      cases hstep
      exact ⟨hshell.shell, h.child⟩
  · next hat =>
      rw [hat] at hshell
      cases hstep
      exact ⟨⟨hshell.safe, fun b hb => hshell.freed hb⟩, h.child⟩
  · cases hstep

/-- A step of the child that only reads, before anything was freed. -/
theorem Owned.childStep (h : Owned t s) (hharmless : ChildHarmless s .child)
    (hstep : childStep t s = some s') : Owned t s' := by
  obtain ⟨hread, hfree⟩ := hharmless
  have hshell := h.shell
  unfold SoKernel.Userland.childStep at hstep
  split at hstep
  · next a rest hat =>
      cases hstep
      have ha : NoFree [a] := by
        intro b hb
        apply hread b rest
        rw [hat, List.mem_singleton.mp hb]
      have ha' : ∀ b, a ≠ .malloc b := fun b hb => h.child _ hat b (by simp [hb])
      have hlog : NoFree (s.log ++ [a]) := NoFree.append hfree ha
      have hmem : ∀ b, .malloc b ∈ s.log ++ [a] → .malloc b ∈ s.log := by
        intro b hb
        rcases List.mem_append.mp hb with hb | hb
        · exact hb
        · exact absurd (List.mem_singleton.mp hb).symm (ha' b)
      refine ⟨?_, fun rest' hrest' b hb => ?_⟩
      · dsimp only
        split at hshell
        · exact ⟨hlog, fun b hb => hshell.2 b (hmem b hb)⟩
        · exact ⟨hlog, fun b hb => hshell.2 b (hmem b hb)⟩
        · exact hshell.child hfree ha ha'
        · exact ⟨hlog.safeLog, fun b hb => List.mem_append_left _ (hshell.2 b (hmem b hb))⟩
      · cases hrest'
        exact h.child _ hat b (List.mem_cons_of_mem _ hb)
  · split at hstep
    · cases hstep
      exact ⟨h.shell, fun rest hrest => (nomatch hrest)⟩
    · cases hstep
  · cases hstep
  · cases hstep

theorem Owned.step {e : LaunchEvent} (h : Owned t s) (he : ChildHarmless s e)
    (hstep : launchStep t s e = some s') : Owned t s' := by
  cases e with
  | shell => exact h.shellStep hstep
  | child => exact h.childStep he hstep
  | kill =>
      simp only [launchStep] at hstep
      split at hstep
      · cases hstep
        exact ⟨h.shell, fun rest hrest => (nomatch hrest)⟩
      · cases hstep
      · cases hstep

theorem LaunchReaches.owned (h : LaunchReaches t ChildHarmless s) : Owned t s := by
  induction h with
  | start => exact owned_start t
  | step e _ he hstep ih => exact ih.step he hstep

end Harmless

section Runs

variable {t : TestLaunch} {s s' : LaunchState} {log rest : List Access}

/-- Any order of steps. -/
abbrev AnyOrder : LaunchState → LaunchEvent → Prop := fun _ _ => True

theorem LaunchReaches.freeAll {c : ChildAt}
    (h : LaunchReaches t AnyOrder ⟨log, .free rest, c⟩) :
    LaunchReaches t AnyOrder ⟨log ++ rest, .returned, c⟩ := by
  induction rest generalizing log with
  | nil => exact .step .shell h trivial (by simp [launchStep, shellStep])
  | cons a rest ih =>
      have hnext : LaunchReaches t AnyOrder ⟨log ++ [a], .free rest, c⟩ :=
        .step .shell h trivial rfl
      have hall := ih hnext
      rwa [List.append_assoc] at hall

theorem LaunchReaches.childRuns {sh : ShellAt}
    (h : LaunchReaches t AnyOrder ⟨log, sh, .running rest⟩) :
    LaunchReaches t AnyOrder ⟨log ++ rest, sh, .running []⟩ := by
  induction rest generalizing log with
  | nil =>
      rw [List.append_nil]
      exact h
  | cons a rest ih =>
      have hnext : LaunchReaches t AnyOrder ⟨log ++ [a], sh, .running rest⟩ :=
        .step .child h trivial rfl
      have hall := ih hnext
      rwa [List.append_assoc] at hall

theorem LaunchReaches.childReturns {sh : ShellAt} (hreturns : t.returns = true)
    (h : LaunchReaches t AnyOrder ⟨log, sh, .running rest⟩) :
    LaunchReaches t AnyOrder ⟨log ++ rest, sh, .over⟩ :=
  .step .child h.childRuns trivial (by simp [launchStep, childStep, hreturns])

/-- The wrapper reads the vector. -/
theorem wrapper_reads (t : TestLaunch) : .read .vector ∈ t.wrapper := by
  unfold TestLaunch.wrapper
  split <;> simp [testSingleArgWrapper, testSyncWrapperCommon]

/-- It frees the vector when the test returns. -/
theorem wrapper_frees (h : t.returns = true) : .free .vector ∈ t.wrapper := by
  unfold TestLaunch.wrapper
  split <;> simp [testSingleArgWrapper, testSyncWrapperCommon, h]

theorem wrapper_noFree (h : t.returns = false) : NoFree t.wrapper := by
  intro b
  unfold TestLaunch.wrapper
  split <;> simp [testSingleArgWrapper, testSyncWrapperCommon, h]

theorem freeArgs_vector (n : ℕ) :
    .read .vector ∈ freeArgs n ∧ .free .vector ∈ freeArgs n := by
  simp [freeArgs]

/-- Two passes over the blocks, each of which frees the vector. -/
theorem not_safeLog {l₁ l₂ : List Access} (h₁ : .free .vector ∈ l₁) (h₂ : .read .vector ∈ l₂) :
    ¬SafeLog (log ++ l₁ ++ l₂) := by
  intro h
  have hpair := (List.pairwise_append.mp h).2.2 _ (List.mem_append_right _ h₁) _ h₂
  exact (hpair .vector rfl).2 rfl

/-- When both get in each other's way, some order of their steps breaks the property. -/
theorem TestLaunch.Contested.violated (h : t.Contested) :
    ∃ s, LaunchReaches t AnyOrder s ∧ ¬SafeLog s.log := by
  obtain ⟨⟨husage, hcopied, hcreated⟩, hboth⟩ := h
  obtain ⟨copies, hstart⟩ : ∃ copies, t.start = ⟨copies, .create, .absent⟩ :=
    ⟨(copyArgs t.granted t.numArgs).1, by simp [TestLaunch.start, husage, hcopied]⟩
  have hinit : LaunchReaches t AnyOrder ⟨copies, .create, .absent⟩ := hstart ▸ .start
  cases hbg : t.background with
  | true =>
      have hspawned : LaunchReaches t AnyOrder
          ⟨copies, .free (freeArgs t.numArgs), .running t.wrapper⟩ :=
        .step .shell hinit trivial (by simp [launchStep, shellStep, hcreated, hbg])
      refine ⟨_, hspawned.freeAll.childRuns, ?_⟩
      exact not_safeLog (freeArgs_vector _).2 (wrapper_reads t)
  | false =>
      have hreturns : t.returns = true := hboth.resolve_left (by rw [hbg]; exact Bool.false_ne_true)
      have hspawned : LaunchReaches t AnyOrder ⟨copies, .wait, .running t.wrapper⟩ :=
        .step .shell hinit trivial (by simp [launchStep, shellStep, hcreated, hbg])
      have hwaited : LaunchReaches t AnyOrder
          ⟨copies ++ t.wrapper, .free (freeArgs t.numArgs), .over⟩ :=
        .step .shell (hspawned.childReturns hreturns) trivial (by simp [launchStep, shellStep])
      refine ⟨_, hwaited.freeAll, ?_⟩
      exact not_safeLog (wrapper_frees hreturns) (freeArgs_vector _).1

/-- A child that is alone with the copies: the shell waits for it, and it will not free them. -/
def Undivided (t : TestLaunch) (s : LaunchState) : Prop :=
  (∀ rest, s.child = .running rest → s.shell = .wait ∧ NoFree rest) ∧
    (s.shell = .create → t.usageOk ∧ (copyArgs t.granted t.numArgs).2)

theorem undivided_start (t : TestLaunch) : Undivided t t.start := by
  rw [TestLaunch.start]
  split
  · next husage =>
      exact ⟨fun _ hrest => (nomatch hrest), fun hcreate => ⟨husage, by simpa using hcreate⟩⟩
  · exact ⟨fun _ hrest => (nomatch hrest), fun hcreate => (nomatch hcreate)⟩

theorem Undivided.shell (h : Undivided t s) (ht : ¬t.Contested)
    (hstep : shellStep t s = some s') : Undivided t s' := by
  obtain ⟨hchild, hcreate⟩ := h
  unfold shellStep at hstep
  split at hstep
  · next hat =>
      split at hstep
      · next hcreated =>
          obtain ⟨husage, hcopied⟩ := hcreate hat
          obtain ⟨hbg, hreturns⟩ := not_or.mp fun hboth => ht ⟨⟨husage, hcopied, hcreated⟩, hboth⟩
          rw [Bool.not_eq_true] at hbg hreturns
          simp only [hbg, Bool.false_eq_true, if_false] at hstep
          cases hstep
          refine ⟨fun rest hrest => ⟨rfl, ?_⟩, fun hcreate => (nomatch hcreate)⟩
          cases hrest
          exact wrapper_noFree hreturns
      · cases hstep
        refine ⟨fun rest hrest => ?_, fun hcreate => (nomatch hcreate)⟩
        rw [(hchild rest hrest).1] at hat
        cases hat
  · split at hstep
    · next hover =>
        cases hstep
        refine ⟨fun rest hrest => ?_, fun hcreate => (nomatch hcreate)⟩
        exact absurd (hover.symm.trans hrest) (by simp)
    · cases hstep
  · next hat =>
      cases hstep
      refine ⟨fun rest hrest => ?_, fun hcreate => (nomatch hcreate)⟩
      rw [(hchild rest hrest).1] at hat
      cases hat
  · next hat =>
      cases hstep
      refine ⟨fun rest hrest => ?_, fun hcreate => (nomatch hcreate)⟩
      rw [(hchild rest hrest).1] at hat
      cases hat
  · cases hstep

theorem Undivided.child (h : Undivided t s) (hstep : childStep t s = some s') :
    Undivided t s' := by
  obtain ⟨hchild, hcreate⟩ := h
  unfold childStep at hstep
  split at hstep
  · next a rest hat =>
      cases hstep
      obtain ⟨hwait, hfree⟩ := hchild _ hat
      refine ⟨fun rest' hrest' => ⟨hwait, fun b hb => ?_⟩, hcreate⟩
      cases hrest'
      exact hfree b (List.mem_cons_of_mem _ hb)
  · split at hstep
    · cases hstep
      exact ⟨fun _ hrest => (nomatch hrest), hcreate⟩
    · cases hstep
  · cases hstep
  · cases hstep

/-- A child that is alone with the copies does no harm. -/
theorem Undivided.harmless (h : Undivided t s) (hs : Owned t s) (hstep : childStep t s = some s') :
    ChildHarmless s .child := by
  have hrunning : ∃ rest, s.child = .running rest := by
    unfold childStep at hstep
    split at hstep
    · next hat => exact ⟨_, hat⟩
    · next hat => exact ⟨_, hat⟩
    · cases hstep
    · cases hstep
  obtain ⟨rest, hchild⟩ := hrunning
  obtain ⟨hwait, hfree⟩ := h.1 rest hchild
  have hshell := hs.shell
  rw [hwait] at hshell
  refine ⟨fun b rest' hrest => ?_, hshell.1⟩
  cases hchild.symm.trans hrest
  exact hfree b List.mem_cons_self

/-- When nothing is contested, every order of steps is harmless. -/
theorem LaunchReaches.harmless (h : LaunchReaches t AnyOrder s) (ht : ¬t.Contested) :
    LaunchReaches t ChildHarmless s ∧ Undivided t s := by
  induction h with
  | start => exact ⟨.start, undivided_start t⟩
  | @step s s' e _ _ hstep ih =>
      obtain ⟨hreach, halone⟩ := ih
      cases e with
      | shell => exact ⟨.step .shell hreach trivial hstep, halone.shell ht hstep⟩
      | child =>
          have hharmless := halone.harmless hreach.owned hstep
          exact ⟨.step .child hreach hharmless hstep, halone.child hstep⟩
      | kill =>
          refine ⟨.step .kill hreach trivial hstep, ?_⟩
          simp only [launchStep] at hstep
          split at hstep
          · cases hstep
            exact ⟨fun _ hrest => (nomatch hrest), halone.2⟩
          · cases hstep
          · cases hstep

/-- The copies have a single owner in every run in which the child neither frees nor runs
once the shell frees; all runs of a command are so exactly when its child is never created, or
when the shell waits for a test that does not return. -/
theorem test_args_single_owner (t : TestLaunch) :
    (∀ s, LaunchReaches t ChildHarmless s → SingleOwner s) ∧
      ((∀ s, LaunchReaches t AnyOrder s → SingleOwner s) ↔ ¬t.Contested) := by
  refine ⟨fun s h => h.owned.singleOwner, ?_, ?_⟩
  · intro h ht
    obtain ⟨s, hs, hunsafe⟩ := ht.violated
    exact hunsafe (h s hs).safe
  · intro ht s h
    exact (h.harmless ht).1.owned.singleOwner

/-- `test_priority 5` in the foreground, with a test that returns: the shell reads the vector
that the child has freed, and frees it again. -/
theorem test_args_freed_twice :
    let t : TestLaunch := ⟨.testPriority, ["test_priority".toList, ['5']], false, fun _ => true,
      true, [0], true⟩
    ∃ s, LaunchReaches t AnyOrder s ∧ s.Complete ∧ s.log.count (.free .vector) = 2 ∧
      s.log.count (.free (.arg 0)) = 2 ∧ ¬SingleOwner s := by
  intro t
  have hreturns : t.returns = true := by decide
  have hspawned : LaunchReaches t AnyOrder ⟨t.start.log, .wait, .running t.wrapper⟩ :=
    .step .shell .start trivial rfl
  have hwaited : LaunchReaches t AnyOrder
      ⟨t.start.log ++ t.wrapper, .free (freeArgs t.numArgs), .over⟩ :=
    .step .shell (hspawned.childReturns hreturns) trivial rfl
  refine ⟨_, hwaited.freeAll, ⟨rfl, by simp⟩, by decide, by decide, ?_⟩
  intro h
  exact not_safeLog (wrapper_frees hreturns) (freeArgs_vector _).1 h.safe

end Runs

end SoKernel.Userland
