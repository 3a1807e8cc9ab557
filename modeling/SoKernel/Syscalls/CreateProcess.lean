import SoKernel.Lib.Word64
import SoKernel.Syscalls.PipeFds

/-!
# The arguments of process creation

The user library packs the foreground flag and two pipe identifiers into one word, which
`syscall_create_process` takes apart again. Only the low sixteen bits of an identifier are
kept, while `pipe_create` hands out identifiers from a counter that never goes back.
-/

namespace SoKernel

open Function (update)

section Model

/-- The word that `my_create_process_with_pipes` hands to the kernel. -/
def packCreateArguments (isForeground : Bool) (stdinPipeId stdoutPipeId : ℕ) : ℕ :=
  let packed := (stdinPipeId &&& 0xFFFF) ||| ((stdoutPipeId &&& 0xFFFF) <<< 16) |||
    ((isForeground.toNat &&& 0x1) <<< 32)
  if stdinPipeId ≠ 0 ∨ stdoutPipeId ≠ 0 then packed ||| (1 <<< 33) else packed

/-- How `syscall_create_process` reads the word: the foreground flag and the identifiers of
the two pipes. -/
def unpackCreateArguments (word : ℕ) : Bool × ℕ × ℕ :=
  if word ≤ 1 then (decide (word ≠ 0), 0, 0)
  else (decide ((word >>> 32) &&& 0x1 ≠ 0), word &&& 0xFFFF, (word >>> 16) &&& 0xFFFF)

/-- The system call with its packed argument. -/
def syscallCreateProcessPacked (k : Kernel) (function priority pcb stack word : ℕ) :
    Option (ℕ × Kernel) :=
  let (isForeground, stdinPipeId, stdoutPipeId) := unpackCreateArguments word
  syscallCreateProcess k
    ⟨function, 0, priority, isForeground, stdinPipeId, stdoutPipeId, pcb, stack⟩

/-- `syscall_pipe_close`. -/
def syscallPipeClose (k : Kernel) (pipeId : ℕ) : Option (ℕ × Kernel) :=
  if pipeId = 0 then some (0, k)
  else if k.current = 0 then some (0, k)
  else
    let entry := (List.range maxFds).find? fun fd =>
      decide (k.fdType k.current fd ≠ .terminal) &&
        (k.fdPipe k.current fd).any fun pipe => decide ((k.pipes pipe).id = pipeId)
    pipeCloseById k pipeId (match entry with
      | some fd => k.fdType k.current fd = .pipeWrite
      | none => true)

end Model

section RoundTrip

variable {stdinId stdoutId : ℕ}

/-- The packed word as a sum of its fields. -/
theorem packCreateArguments_eq (fg : Bool) (stdinId stdoutId : ℕ) :
    packCreateArguments fg stdinId stdoutId = stdinId % 2 ^ 16 + 2 ^ 16 * (stdoutId % 2 ^ 16) +
      2 ^ 32 * fg.toNat + (if stdinId ≠ 0 ∨ stdoutId ≠ 0 then 2 ^ 33 else 0) := by
  have hmask : ∀ n, n &&& 0xFFFF = n % 2 ^ 16 := fun n => Nat.and_two_pow_sub_one_eq_mod n 16
  have hflag : fg.toNat &&& 0x1 = fg.toNat := by cases fg <;> rfl
  have hlow : stdinId % 2 ^ 16 < 2 ^ 16 := Nat.mod_lt _ (by decide)
  have hmid : stdoutId % 2 ^ 16 < 2 ^ 16 := Nat.mod_lt _ (by decide)
  have hfg := Bool.toNat_le fg
  have hjoin : ∀ a b i, b < 2 ^ i → b ||| a <<< i = b + 2 ^ i * a := by
    intro a b i hb
    rw [Nat.or_comm, ← Nat.shiftLeft_add_eq_or_of_lt hb, Nat.shiftLeft_eq]
    ring
  unfold packCreateArguments
  simp only [hmask, hflag]
  rw [hjoin (stdoutId % 2 ^ 16) _ 16 hlow, hjoin fg.toNat _ 32 (by omega)]
  split
  · rw [hjoin 1 _ 33 (by omega), Nat.mul_one]
  · rfl

theorem unpackCreateArguments_eq (word : ℕ) :
    unpackCreateArguments word = if word ≤ 1 then (decide (word ≠ 0), 0, 0)
      else (decide (word / 2 ^ 32 % 2 ≠ 0), word % 2 ^ 16, word / 2 ^ 16 % 2 ^ 16) := by
  have hmask : ∀ n, n &&& 0xFFFF = n % 2 ^ 16 := fun n => Nat.and_two_pow_sub_one_eq_mod n 16
  have hflag : ∀ n, n &&& 0x1 = n % 2 := fun n => Nat.and_two_pow_sub_one_eq_mod n 1
  unfold unpackCreateArguments
  simp only [hmask, hflag, Nat.shiftRight_eq_div_pow]

/-- The arguments come out as they went in exactly when both identifiers have at most
sixteen bits. -/
theorem create_arguments_round_trip (isForeground : Bool) (stdinPipeId stdoutPipeId : ℕ) :
    unpackCreateArguments (packCreateArguments isForeground stdinPipeId stdoutPipeId) =
        (isForeground, stdinPipeId, stdoutPipeId) ↔
      stdinPipeId < 2 ^ 16 ∧ stdoutPipeId < 2 ^ 16 := by
  rw [packCreateArguments_eq, unpackCreateArguments_eq]
  have hlow : stdinPipeId % 2 ^ 16 < 2 ^ 16 := Nat.mod_lt _ (by decide)
  have hmid : stdoutPipeId % 2 ^ 16 < 2 ^ 16 := Nat.mod_lt _ (by decide)
  by_cases hids : stdinPipeId ≠ 0 ∨ stdoutPipeId ≠ 0
  · rw [if_pos hids, if_neg (by omega)]
    simp only [Prod.mk.injEq]
    cases isForeground
    all_goals
      simp only [Bool.toNat_false, Bool.toNat_true, decide_eq_false_iff_not, decide_eq_true_eq]
      omega
  · rw [if_neg hids]
    simp only [not_or, not_not] at hids
    obtain ⟨rfl, rfl⟩ := hids
    cases isForeground <;> decide

end RoundTrip

section Counter

variable {k k' : Kernel} {id i n : ℕ} {v : ℤ}

/-- The first unused entry of the table of semaphores is taken. -/
theorem semAlloc_first (hi : i < maxSemaphores) (hfree : (k.semaphores i).used = false)
    (hused : ∀ j < i, (k.semaphores j).used = true) :
    semAlloc k v = (k.nextSemId,
      { k with
        semaphores := update k.semaphores i ⟨k.nextSemId, v, 1, 0, 0, true⟩
        nextSemId := k.nextSemId + 1 }) := by
  have hfind : ((List.range maxSemaphores).find? fun j => !(k.semaphores j).used) = some i := by
    rw [List.find?_range_eq_some]
    exact ⟨by simp [hfree], List.mem_range.mpr hi, fun j hj => by simp [hused j hj]⟩
  rw [semAlloc, hfind]

/-- The search for an identifier that no earlier entry has. -/
theorem semGetById_first (hpos : 0 < id) (hi : i < maxSemaphores)
    (hused : (k.semaphores i).used = true) (hid : (k.semaphores i).id = id)
    (hother : ∀ j < i, (k.semaphores j).used = true → (k.semaphores j).id ≠ id) :
    semGetById k id = some i := by
  rw [semGetById, if_neg (by omega), findSlotById, List.find?_range_eq_some]
  refine ⟨by simp [hused, hid], List.mem_range.mpr hi, fun j hj => ?_⟩
  cases hu : (k.semaphores j).used with
  | false => simp
  | true => simp [hother j hj hu]

/-- A state with no pipes, where the keyboard has the only semaphore and the next pipe gets
the identifier `n`. -/
structure NoPipes (k : Kernel) (n : ℕ) : Prop where
  pipes : ∀ i < maxPipes, (k.pipes i).used = false
  keyboard : (k.semaphores 0).used = true ∧ (k.semaphores 0).id < k.nextSemId
  semaphores : ∀ i < maxSemaphores, 0 < i → (k.semaphores i).used = false
  nextPipeId : k.nextPipeId = n
  current : k.current ≠ 0
  fds : ∀ fd < maxFds, k.fdPipe k.current fd = none

/-- The state after the creation of the first pipe. -/
def firstPipe (k : Kernel) : Kernel :=
  { k with
    semaphores := update (update (update k.semaphores 1 ⟨k.nextSemId, 0, 1, 0, 0, true⟩) 2
      ⟨k.nextSemId + 1, pipeBufferSize, 1, 0, 0, true⟩) 3 ⟨k.nextSemId + 2, 1, 1, 0, 0, true⟩
    nextSemId := k.nextSemId + 3
    pipes := update k.pipes 0 ⟨k.nextPipeId, fun _ => 0, 0, 0, 0, 0, 0, k.nextSemId,
      k.nextSemId + 1, k.nextSemId + 2, true⟩
    nextPipeId := k.nextPipeId + 1 }

theorem NoPipes.create (h : NoPipes k n) : pipeCreate k = (n, firstPipe k) := by
  have hkbd := h.keyboard
  have hfind : ((List.range maxPipes).find? fun i => !(k.pipes i).used) = some 0 := by
    rw [List.find?_range_eq_some]
    exact ⟨by simp [h.pipes 0 (by decide)], List.mem_range.mpr (by decide), fun j hj => by omega⟩
  have hone := semAlloc_first (k := k) (v := 0) (i := 1) (by decide) (h.semaphores 1 (by decide)
    (by decide)) fun j hj => by rw [show j = 0 by omega]; exact hkbd.1
  rw [pipeCreate, hfind]
  simp only [hone]
  rw [if_neg (by omega), semAlloc_first (i := 2) (by decide)
    (by simp [h.semaphores 2 (by decide)])]
  swap
  · intro j hj
    interval_cases j <;> simp [hkbd.1]
  simp only
  rw [if_neg (by omega), semAlloc_first (i := 3) (by decide)
    (by simp [h.semaphores 3 (by decide)])]
  swap
  · intro j hj
    interval_cases j <;> simp [hkbd.1]
  simp only
  rw [if_neg (by omega)]
  simp only [setPipe, firstPipe, h.nextPipeId]

/-- The last reference to a semaphore is given up. -/
theorem semCloseById_last (hfind : semGetById k id = some i) (href : (k.semaphores i).refcount = 1) :
    ∃ s : Semaphore, s.id = (k.semaphores i).id ∧ s.used = false ∧
      (semCloseById k id).2 = { k with semaphores := update k.semaphores i s } := by
  refine ⟨{ k.semaphores i with refcount := 0, used := false, waitHead := 0, waitTail := 0 }, rfl,
    rfl, ?_⟩
  simp only [semCloseById, hfind, href]
  rfl

/-- A pipe without ends goes away when it is closed. -/
theorem NoPipes.close (h : NoPipes k n) (hn : 0 < n) :
    ∃ r k', syscallPipeClose (firstPipe k) n = some (r, k') ∧ NoPipes k' (n + 1) := by
  have hkbd := h.keyboard
  have hpipe : pipeGetById (firstPipe k) n = some 0 := by
    rw [pipeGetById, if_neg (by omega), findPipeById, List.find?_range_eq_some]
    refine ⟨?_, List.mem_range.mpr (by decide), fun j hj => by omega⟩
    simp [firstPipe, h.nextPipeId]
  have hfds : ((List.range maxFds).find? fun fd =>
      decide ((firstPipe k).fdType (firstPipe k).current fd ≠ .terminal) &&
        ((firstPipe k).fdPipe (firstPipe k).current fd).any fun pipe =>
          decide (((firstPipe k).pipes pipe).id = n)) = none := by
    rw [List.find?_eq_none]
    intro fd hfd
    have hnone : (firstPipe k).fdPipe (firstPipe k).current fd = none :=
      h.fds fd (List.mem_range.mp hfd)
    simp [hnone]
  have hcurrent : (firstPipe k).current ≠ 0 := h.current
  have hslot : ∀ k₁ : Kernel, (∀ j, (k₁.semaphores j).id = ((firstPipe k).semaphores j).id) →
      ∀ j, 0 < j → j ≤ 3 → (k₁.semaphores j).used = true →
        semGetById k₁ (k.nextSemId + (j - 1)) = some j := by
    intro k₁ hids j hj hj3 hu
    refine semGetById_first (by omega) (by unfold maxSemaphores; omega) hu ?_ fun l hl _ => ?_
    · rw [hids]
      interval_cases j <;> rfl
    · rw [hids]
      interval_cases j <;> interval_cases l <;> simp [firstPipe] <;> omega
  have hwait : mutexWait (firstPipe k) (k.nextSemId + 2) =
      some (setSemValue (firstPipe k) 3 0) := by
    have hget := hslot (firstPipe k) (fun _ => rfl) 3 (by decide) le_rfl rfl
    simp only [mutexWait, semWaitStart, hget, if_neg hcurrent]
    rfl
  unfold syscallPipeClose
  rw [if_neg (by omega), if_neg hcurrent, hfds]
  have hentry : (firstPipe k).pipes 0 = ⟨k.nextPipeId, fun _ => 0, 0, 0, 0, 0, 0, k.nextSemId,
      k.nextSemId + 1, k.nextSemId + 2, true⟩ := rfl
  -- the state after the release of the mutex; only the entries of the tables have changed
  obtain ⟨k₂, hk₂⟩ : ∃ k₂, k₂ = setSemValue (setPipe (setPipe (setSemValue (firstPipe k) 3 0) 0
      ((firstPipe k).pipes 0)) 0 ((firstPipe k).pipes 0).destroyed) 3 1 := ⟨_, rfl⟩
  have hids : ∀ j, (k₂.semaphores j).id = ((firstPipe k).semaphores j).id := by
    intro j
    rw [hk₂]
    by_cases hj : j = 3
    · subst hj
      rfl
    · simp [setPipe, hj]
  refine ⟨1, (semCloseById (semCloseById (semCloseById k₂ k.nextSemId).2 (k.nextSemId + 1)).2
    (k.nextSemId + 2)).2, ?_, ?_⟩
  · have hget := hslot (setPipe (setPipe (setSemValue (firstPipe k) 3 0) 0
      ((firstPipe k).pipes 0)) 0 ((firstPipe k).pipes 0).destroyed) ?_ 3 (by decide) le_rfl rfl
    · simp only [pipeCloseById, hpipe, hentry, hwait, Option.bind_eq_bind, Option.bind_some]
      have hsig := semSignal_of_empty hget rfl
      rw [hk₂]
      exact congrArg (fun o : Option Kernel => o.bind fun k' => some (1, (semCloseById
        (semCloseById (semCloseById k' k.nextSemId).2 (k.nextSemId + 1)).2
          (k.nextSemId + 2)).2)) hsig
    · intro j
      by_cases hj : j = 3
      · subst hj
        rfl
      · simp [setPipe, hj]
  · have hslot₁ : semGetById k₂ k.nextSemId = some 1 :=
      hslot k₂ hids 1 (by decide) (by decide) (by rw [hk₂]; rfl)
    obtain ⟨s₁, hid₁, hu₁, hclose₁⟩ := semCloseById_last hslot₁ (by rw [hk₂]; rfl)
    rw [hclose₁]
    have hids₁ : ∀ j, (update k₂.semaphores 1 s₁ j).id = ((firstPipe k).semaphores j).id := by
      intro j
      by_cases hj : j = 1
      · subst hj
        rw [Function.update_self, hid₁, hids]
      · rw [Function.update_of_ne hj, hids]
    have hslot₂ := hslot { k₂ with semaphores := update k₂.semaphores 1 s₁ } hids₁ 2 (by decide)
      (by decide) (by rw [hk₂]; rfl)
    obtain ⟨s₂, hid₂, hu₂, hclose₂⟩ := semCloseById_last hslot₂ (by rw [hk₂]; rfl)
    rw [show k.nextSemId + (2 - 1) = k.nextSemId + 1 from rfl] at hclose₂
    rw [hclose₂]
    have hids₂ : ∀ j, (update (update k₂.semaphores 1 s₁) 2 s₂ j).id =
        ((firstPipe k).semaphores j).id := by
      intro j
      by_cases hj : j = 2
      · subst hj
        rw [Function.update_self, hid₂, hids₁]
      · rw [Function.update_of_ne hj, hids₁]
    have hslot₃ := hslot { k₂ with semaphores := update (update k₂.semaphores 1 s₁) 2 s₂ } hids₂ 3
      (by decide) (by decide) (by rw [hk₂]; rfl)
    obtain ⟨s₃, hid₃, hu₃, hclose₃⟩ := semCloseById_last hslot₃ (by rw [hk₂]; rfl)
    rw [show k.nextSemId + (3 - 1) = k.nextSemId + 2 from rfl] at hclose₃
    rw [hclose₃, hk₂]
    constructor
    · intro i hi
      by_cases hi0 : i = 0
      · subst hi0
        rfl
      · simp [setPipe, firstPipe, hi0, h.pipes i hi]
    · refine ⟨hkbd.1, ?_⟩
      exact Nat.lt_of_lt_of_le hkbd.2 (Nat.le_add_right _ 3)
    · intro i hi hpos
      simp only [Function.update_apply]
      split
      · exact hu₃
      split
      · exact hu₂
      split
      · exact hu₁
      · rename_i h3 h2 h1
        simp [setPipe, firstPipe, h1, h2, h3, h.semaphores i hi hpos]
    · exact congrArg (· + 1) h.nextPipeId
    · exact h.current
    · exact h.fds

/-- A process makes a pipe and closes it, a number of times. -/
def pipeRounds : ℕ → Kernel → Option Kernel
  | 0, k => some k
  | n + 1, k => do
      let (id, k) := pipeCreate k
      let (_, k) ← syscallPipeClose k id
      pipeRounds n k

/-- The counter of identifiers does not go back. -/
theorem NoPipes.rounds (h : NoPipes k n) (hn : 0 < n) (m : ℕ) :
    ∃ k', pipeRounds m k = some k' ∧ NoPipes k' (n + m) := by
  induction m generalizing k n with
  | zero => exact ⟨k, rfl, h⟩
  | succ m ih =>
      obtain ⟨r, k₁, hclose, h₁⟩ := h.close hn
      obtain ⟨k₂, hrounds, h₂⟩ := ih h₁ (by omega)
      refine ⟨k₂, ?_, ?_⟩
      · simp only [pipeRounds, h.create, hclose, Option.bind_eq_bind, Option.bind_some, hrounds]
      · rw [show n + (m + 1) = n + 1 + m by omega]
        exact h₂

end Counter

/-- After 65535 rounds the shell gets a pipe whose identifier is lost on the way to the
kernel: its child would read from the terminal. -/
theorem pipe_id_lost_in_creation :
    ∃ k₀ k₁ k₂ id, initScheduler bootKernel 16 8192 = some k₀ ∧
      execAll k₀ [.keyboardInit, .spawn ⟨1, 0, 2, true, 0, 0, 48, 12288⟩,
        .tick ⟨0, fun _ => 0⟩] = some k₁ ∧ k₁.current = 48 ∧
      pipeRounds 65535 k₁ = some k₂ ∧ (pipeCreate k₂).1 = id ∧
      unpackCreateArguments (packCreateArguments true id 0) = (true, 0, 0) ∧ id ≠ 0 := by
  have hcalc : ((initScheduler bootKernel 16 8192).bind fun k₀ =>
      (execAll k₀ [.keyboardInit, .spawn ⟨1, 0, 2, true, 0, 0, 48, 12288⟩,
        .tick ⟨0, fun _ => 0⟩]).map fun k₁ =>
          decide (((∀ i < maxPipes, (k₁.pipes i).used = false) ∧
            (k₁.semaphores 0).used = true ∧ (k₁.semaphores 0).id < k₁.nextSemId) ∧
            (∀ i < maxSemaphores, 0 < i → (k₁.semaphores i).used = false) ∧
            (k₁.nextPipeId = 1 ∧ k₁.current = 48) ∧
              ∀ fd < maxFds, k₁.fdPipe k₁.current fd = none)) = some true := by
    decide +kernel
  obtain ⟨k₀, hinit, h₁⟩ := Option.bind_eq_some_iff.mp hcalc
  obtain ⟨k₁, hall, h₂⟩ := Option.map_eq_some_iff.mp h₁
  obtain ⟨⟨hpipes, hkbd⟩, hsems, ⟨hnext, hcurrent⟩, hfds⟩ := of_decide_eq_true h₂
  have hstart : NoPipes k₁ 1 := ⟨hpipes, hkbd, hsems, hnext, by omega, hfds⟩
  obtain ⟨k₂, hrounds, hend⟩ := hstart.rounds Nat.one_pos 65535
  refine ⟨k₀, k₁, k₂, 65536, hinit, hall, hcurrent, hrounds, ?_, ?_, ?_⟩
  · rw [hend.create]
  · decide
  · decide

end SoKernel
