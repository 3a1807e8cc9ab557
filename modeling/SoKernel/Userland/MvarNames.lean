import SoKernel.Proc.Boot
import SoKernel.Userland.NamedSem

/-!
# The names of an MVar

Embedding of `mvarCmd` of `commands_pipe.c`. The command forms the names of its three
semaphores from the identifier of the calling process, and hands them to its writers and
readers.
-/

namespace SoKernel.Userland

section Model

/-- One call of `mvarCmd`: its arguments, the identifier of the caller, and the outcomes of
what it asks for. `starts` tells of the writer or reader with the given number whether its
arguments could be allocated and its process created. -/
structure MvarCall where
  argv : List (List Char)
  pid : ℤ
  copied : List Char → Bool
  writerStarts : ℕ → Bool
  readerStarts : ℕ → Bool

inductive MvarRole where
  | writer
  | reader
  deriving DecidableEq, Repr

/-- A process that `mvarCmd` has created, with its arguments. -/
structure MvarProcess where
  role : MvarRole
  argv : List (List Char)
  deriving DecidableEq, Repr

/-- What a call of `mvarCmd` leaves behind: its result, the names that it has passed to the
registry, in order, the processes that it has created and the shared state. -/
structure MvarRun where
  result : ℤ
  calls : List (List Char)
  processes : List MvarProcess
  system : System

structure MvarNames where
  slots : List Char
  items : List Char
  mutex : List Char
  deriving DecidableEq, Repr

/-- The four calls of `sprintf` that form the names. -/
def mvarNames (currentPid : ℤ) : Option MvarNames := do
  let suffix ← sprintf "%llx" [.word currentPid]
  let slots ← sprintf "mvar_slots_%s" [.str suffix]
  let items ← sprintf "mvar_items_%s" [.str suffix]
  let mutex ← sprintf "mvar_mutex_%s" [.str suffix]
  some ⟨slots, items, mutex⟩

/-- The arguments of the writer with number `i`. -/
def writerArgv (n : MvarNames) (pipeId i : ℕ) : Option (List (List Char)) := do
  let pipe ← sprintf "%llu" [.word pipeId]
  let delay ← sprintf "%d" [.word (2 + i % 3 : ℕ)]
  some [[Char.ofNat ('A'.toNat + i % 26)], n.slots, n.items, n.mutex, pipe, delay]

/-- The arguments of the reader with number `j`. -/
def readerArgv (n : MvarNames) (pipeId j : ℕ) : Option (List (List Char)) := do
  let id ← sprintf "%d" [.word j]
  let pipe ← sprintf "%llu" [.word pipeId]
  let delay ← sprintf "%d" [.word (3 + j % 3 : ℕ)]
  some [id, n.items, n.slots, n.mutex, pipe, delay]

/-- The loops of `mvarCmd` over its writers and its readers. -/
def mvarProcesses (c : MvarCall) (n : MvarNames) (pipeId numWriters numReaders : ℕ) :
    Option (List MvarProcess) := do
  let writers ← ((List.range numWriters).filter c.writerStarts).mapM (writerArgv n pipeId)
  let readers ← ((List.range numReaders).filter c.readerStarts).mapM (readerArgv n pipeId)
  some (writers.map (⟨.writer, ·⟩) ++ readers.map (⟨.reader, ·⟩))

/-- `mvarCmd` after the checks of its arguments. -/
def mvarStart (u : System) (c : MvarCall) (numWriters numReaders : ℕ) : Option MvarRun := do
  let n ← mvarNames c.pid
  let (opened, u) := mySemOpen u n.slots 1 (c.copied n.slots)
  if opened < 0 then return ⟨cmdError, [n.slots], [], u⟩
  let (opened, u) := mySemOpen u n.items 0 (c.copied n.items)
  if opened < 0 then
    let u := (mySemClose u n.slots).2
    return ⟨cmdError, [n.slots, n.items, n.slots], [], u⟩
  let (opened, u) := mySemOpen u n.mutex 1 (c.copied n.mutex)
  if opened < 0 then
    let u := (mySemClose (mySemClose u n.slots).2 n.items).2
    return ⟨cmdError, [n.slots, n.items, n.mutex, n.slots, n.items], [], u⟩
  let (pipeId, k) := pipeCreate u.kernel
  let u := { u with kernel := k }
  if pipeId = 0 then
    let u := (mySemClose (mySemClose (mySemClose u n.slots).2 n.items).2 n.mutex).2
    return ⟨cmdError, [n.slots, n.items, n.mutex, n.slots, n.items, n.mutex], [], u⟩
  let processes ← mvarProcesses c n pipeId numWriters numReaders
  return ⟨ok, [n.slots, n.items, n.mutex], processes, u⟩

/-- `mvarCmd`. -/
def mvarCmd (u : System) (c : MvarCall) : Option MvarRun :=
  match c.argv with
  | [_, writers, readers] =>
      let numWriters := atoi writers
      let numReaders := atoi readers
      if numWriters ≤ 0 ∨ 26 < numWriters then some ⟨cmdError, [], [], u⟩
      else if numReaders ≤ 0 ∨ 20 < numReaders then some ⟨cmdError, [], [], u⟩
      else mvarStart u c numWriters.toNat numReaders.toNat
  | _ => some ⟨cmdError, [], [], u⟩

/-- The names that the loops of `mvar_writer_entry` and `mvar_reader_entry` wait on and post:
the copies of three arguments into buffers of 32 characters. -/
def MvarProcess.semNames (p : MvarProcess) : List (List Char) :=
  ((p.argv.drop 1).take 3).map (·.take 31)

/-- All names of semaphores that an invocation uses, itself or through its processes. -/
def MvarRun.semNames (r : MvarRun) : List (List Char) :=
  r.calls ++ r.processes.flatMap MvarProcess.semNames

/-- The command line passes the checks of `mvarCmd`. -/
def MvarCall.Accepted (c : MvarCall) : Prop :=
  ∃ name writers readers, c.argv = [name, writers, readers] ∧
    0 < atoi writers ∧ atoi writers ≤ 26 ∧ 0 < atoi readers ∧ atoi readers ≤ 20

/-- Two invocations use no common name, and their processes no common entry of the
registry. -/
structure Isolated (r₁ r₂ : MvarRun) : Prop where
  names : ∀ n₁ ∈ r₁.semNames, ∀ n₂ ∈ r₂.semNames, n₁ ≠ n₂
  entries : ∀ registry, ∀ p₁ ∈ r₁.processes, ∀ p₂ ∈ r₂.processes, ∀ n₁ ∈ p₁.semNames,
    ∀ n₂ ∈ p₂.semNames, ∀ i, findSemIndex registry n₁ = some i →
      findSemIndex registry n₂ ≠ some i

end Model

section Names

variable {u : System} {c : MvarCall} {r : MvarRun} {n : MvarNames}

theorem findSemIndex_name {registry : SemRegistry} {name : List Char} {i : ℕ}
    (h : findSemIndex registry name = some i) : registry.names i = some name := by
  have hfound := List.find?_some h
  exact of_decide_eq_true hfound

/-- Different names have different entries. -/
theorem Isolated.of_names {r₁ r₂ : MvarRun}
    (h : ∀ n₁ ∈ r₁.semNames, ∀ n₂ ∈ r₂.semNames, n₁ ≠ n₂) : Isolated r₁ r₂ := by
  refine ⟨h, ?_⟩
  intro registry p₁ hp₁ p₂ hp₂ n₁ hn₁ n₂ hn₂ i hi₁ hi₂
  have hmem : ∀ {r : MvarRun} {p : MvarProcess} {n : List Char}, p ∈ r.processes →
      n ∈ p.semNames → n ∈ r.semNames := fun hp hn =>
    List.mem_append_right _ (List.mem_flatMap.mpr ⟨_, hp, hn⟩)
  apply h n₁ (hmem hp₁ hn₁) n₂ (hmem hp₂ hn₂)
  exact Option.some.inj ((findSemIndex_name hi₁).symm.trans (findSemIndex_name hi₂))

/-- `sprintf` has no hexadecimal conversion: the suffix does not depend on the process. -/
theorem sprintf_llx (v : ℤ) : sprintf "%llx" [.word v] = some "%x".toList := by
  have hconvert := convert_unknown 2 'x' [.word v] (by decide)
  simp [sprintf, sprintfLoop, hconvert]

/-- The names are the same for every caller. -/
theorem mvarNames_eq (pid : ℤ) :
    mvarNames pid = some ⟨"mvar_slots_%x".toList, "mvar_items_%x".toList,
      "mvar_mutex_%x".toList⟩ := by
  rw [mvarNames, sprintf_llx]
  rfl

theorem writerArgv_isSome (n : MvarNames) (pipeId i : ℕ) : (writerArgv n pipeId i).isSome := rfl

theorem readerArgv_isSome (n : MvarNames) (pipeId j : ℕ) : (readerArgv n pipeId j).isSome := rfl

theorem mapM_isSome {α β : Type} {f : α → Option β} (hf : ∀ a, (f a).isSome) (as : List α) :
    (as.mapM f).isSome := by
  induction as with
  | nil => rfl
  | cons a as ih =>
      obtain ⟨b, hb⟩ := Option.isSome_iff_exists.mp (hf a)
      obtain ⟨bs, hbs⟩ := Option.isSome_iff_exists.mp ih
      simp [List.mapM_cons, hb, hbs]

theorem mvarProcesses_isSome (c : MvarCall) (n : MvarNames) (pipeId numWriters numReaders : ℕ) :
    (mvarProcesses c n pipeId numWriters numReaders).isSome := by
  obtain ⟨writers, hwriters⟩ := Option.isSome_iff_exists.mp
    (mapM_isSome (writerArgv_isSome n pipeId) ((List.range numWriters).filter c.writerStarts))
  obtain ⟨readers, hreaders⟩ := Option.isSome_iff_exists.mp
    (mapM_isSome (readerArgv_isSome n pipeId) ((List.range numReaders).filter c.readerStarts))
  simp [mvarProcesses, hwriters, hreaders]

/-- Past its checks, the command always asks for the same name first. -/
theorem mvarStart_spec (u : System) (c : MvarCall) (numWriters numReaders : ℕ) :
    ∃ r, mvarStart u c numWriters numReaders = some r ∧ "mvar_slots_%x".toList ∈ r.calls := by
  rw [mvarStart, mvarNames_eq, Option.bind_eq_bind, Option.bind_some]
  dsimp only
  split
  · exact ⟨_, rfl, by simp⟩
  · split
    · exact ⟨_, rfl, by simp⟩
    · split
      · exact ⟨_, rfl, by simp⟩
      · split
        · exact ⟨_, rfl, by simp⟩
        · obtain ⟨processes, hprocesses⟩ := Option.isSome_iff_exists.mp
            (mvarProcesses_isSome c _ _ numWriters numReaders)
          rw [hprocesses]
          exact ⟨_, rfl, by simp⟩

theorem mvarCmd_accepted (u : System) (h : c.Accepted) :
    ∃ r, mvarCmd u c = some r ∧ "mvar_slots_%x".toList ∈ r.calls := by
  obtain ⟨name, writers, readers, hargv, hw, hw', hr, hr'⟩ := h
  rw [mvarCmd, hargv]
  dsimp only
  rw [if_neg (by omega), if_neg (by omega)]
  exact mvarStart_spec u c _ _

/-- A refused command line touches no semaphore. -/
theorem mvarCmd_refused (u : System) (h : ¬c.Accepted) :
    mvarCmd u c = some ⟨cmdError, [], [], u⟩ := by
  unfold mvarCmd
  split
  · next name writers readers hargv =>
      dsimp only
      split
      · rfl
      · next hw =>
          split
          · rfl
          · next hr => exact absurd ⟨name, writers, readers, hargv, by omega⟩ h
  · rfl

theorem mvarCmd_isSome (u : System) (c : MvarCall) : ∃ r, mvarCmd u c = some r := by
  by_cases h : c.Accepted
  · obtain ⟨r, hr, -⟩ := mvarCmd_accepted u h
    exact ⟨r, hr⟩
  · exact ⟨_, mvarCmd_refused u h⟩

/-- Two invocations are isolated exactly when the checks of the arguments refuse one of
them. -/
theorem mvar_isolated_iff (u₁ u₂ : System) (c₁ c₂ : MvarCall) :
    (∃ r₁ r₂, mvarCmd u₁ c₁ = some r₁ ∧ mvarCmd u₂ c₂ = some r₂ ∧ Isolated r₁ r₂) ↔
      ¬(c₁.Accepted ∧ c₂.Accepted) := by
  constructor
  · rintro ⟨r₁, r₂, h₁, h₂, hisolated⟩ ⟨ha₁, ha₂⟩
    obtain ⟨s₁, hs₁, hslots₁⟩ := mvarCmd_accepted u₁ ha₁
    obtain ⟨s₂, hs₂, hslots₂⟩ := mvarCmd_accepted u₂ ha₂
    cases h₁.symm.trans hs₁
    cases h₂.symm.trans hs₂
    exact hisolated.names _ (List.mem_append_left _ hslots₁) _ (List.mem_append_left _ hslots₂) rfl
  · intro h
    obtain ⟨r₁, h₁⟩ := mvarCmd_isSome u₁ c₁
    obtain ⟨r₂, h₂⟩ := mvarCmd_isSome u₂ c₂
    refine ⟨r₁, r₂, h₁, h₂, .of_names ?_⟩
    intro n₁ hn₁ n₂ hn₂
    rcases not_and_or.mp h with ha | ha
    · cases h₁.symm.trans (mvarCmd_refused u₁ ha)
      simp [MvarRun.semNames] at hn₁
    · cases h₂.symm.trans (mvarCmd_refused u₂ ha)
      simp [MvarRun.semNames] at hn₂

/-- A call in which nothing that the command asks for fails. -/
def mvarCallOf (pid : ℤ) (writers readers : String) : MvarCall where
  argv := ["mvar".toList, writers.toList, readers.toList]
  pid := pid
  copied := fun _ => true
  writerStarts := fun _ => true
  readerStarts := fun _ => true

/-- After the start of the system, `mvar 1 1` in one process and `mvar 2 3` in another: the
writers of both wait on the same semaphore of the kernel. -/
theorem mvar_instances_share_semaphores :
    ∃ k r₁ r₂, bootSystem 16 4096 32 8192 64 = some k ∧
      mvarCmd ⟨k, .empty⟩ (mvarCallOf 2 "1" "1") = some r₁ ∧
      mvarCmd r₁.system (mvarCallOf 5 "2" "3") = some r₂ ∧ ¬Isolated r₁ r₂ ∧
      ∃ p₁ ∈ r₁.processes, ∃ p₂ ∈ r₂.processes, ∃ n ∈ p₁.semNames, n ∈ p₂.semNames ∧
        semTarget r₂.system.registry n = some 2 ∧ (findSlotById r₂.system.kernel 2).isSome := by
  have hrun : ((bootSystem 16 4096 32 8192 64).bind fun k =>
      (mvarCmd ⟨k, .empty⟩ (mvarCallOf 2 "1" "1")).bind fun r₁ =>
        (mvarCmd r₁.system (mvarCallOf 5 "2" "3")).map fun r₂ =>
          decide (∃ p₁ ∈ r₁.processes, ∃ p₂ ∈ r₂.processes, ∃ n ∈ p₁.semNames, n ∈ p₂.semNames ∧
            semTarget r₂.system.registry n = some 2 ∧
              (findSlotById r₂.system.kernel 2).isSome)) = some true := by
    decide +kernel
  obtain ⟨k, hk, hrest⟩ := Option.bind_eq_some_iff.mp hrun
  obtain ⟨r₁, hr₁, hrest⟩ := Option.bind_eq_some_iff.mp hrest
  obtain ⟨r₂, hr₂, hshared⟩ := Option.map_eq_some_iff.mp hrest
  have hshared := of_decide_eq_true hshared
  refine ⟨k, r₁, r₂, hk, hr₁, hr₂, ?_, hshared⟩
  intro hisolated
  obtain ⟨p₁, hp₁, p₂, hp₂, n, hn₁, hn₂, htarget, -⟩ := hshared
  obtain ⟨i, hi, -⟩ := Option.map_eq_some_iff.mp htarget
  exact hisolated.entries _ p₁ hp₁ p₂ hp₂ n hn₁ n hn₂ i hi hi

end Names

end SoKernel.Userland
