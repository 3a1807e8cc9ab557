import Mathlib.Data.Set.Card
import Mathlib.Tactic.FinCases
import SoKernel.Proc.Dispatch

/-!
# The list of processes

Embedding of `scheduler_list_all_processes` and of the system call around it. The entries
come from five queues and from the current process, which may be in one of these as well:
a process that kills itself is queued as finished while it still runs.

The names of the processes, which no other modelled function reads, are an argument.
-/

namespace SoKernel

open Function (update)

section Model

def processNameMaxLen : ℕ := 32

def maxProcessInfo : ℕ := 64

/-- `process_info_t`, with the bytes of the name up to its terminator. -/
structure ProcessInfo where
  pid : ℕ
  name : List UInt8
  state : ProcessState
  priority : Priority
  rsp : ℕ
  rbp : ℕ
  foreground : Bool
  deriving DecidableEq, Repr

variable (k : Kernel) (name : ℕ → ℕ → UInt8)

/-- The loop of `add_process_to_list` that copies a name, and the terminator behind it. -/
def copyName (bytes : ℕ → UInt8) : List UInt8 :=
  ((List.range processNameMaxLen).map bytes).takeWhile (· ≠ 0) ++ [0]

/-- The entry that `add_process_to_list` writes. -/
def processInfo (p : ℕ) : ProcessInfo where
  pid := k.pid p
  name := copyName (name p)
  state := k.state p
  priority := k.priority p
  rsp := k.rsp p
  rbp := k.rbp p
  foreground := k.isForeground p

/-- `add_process_to_list`; the buffer is the list of the entries written so far. -/
def addProcessToList (p : ℕ) (buffer : List ProcessInfo) (maxCount : ℕ) : List ProcessInfo :=
  if p = 0 ∨ maxCount ≤ buffer.length ∨ p = k.idleP then buffer
  else buffer ++ [processInfo k name p]

/-- The loop of `scheduler_list_all_processes` over one queue. -/
def listQueue (maxCount : ℕ) : ℕ → ℕ → List ProcessInfo → Option (List ProcessInfo)
  | 0, _, _ => none
  | n + 1, p, buffer =>
      if p ≠ 0 ∧ buffer.length < maxCount then
        listQueue maxCount n (k.queueNext p) (addProcessToList k name p buffer maxCount)
      else some buffer

def listQueues (maxCount : ℕ) : List QueueId → List ProcessInfo → Option (List ProcessInfo)
  | [], buffer => some buffer
  | q :: qs, buffer => do
      let buffer ← listQueue k name maxCount addressCount (k.queues q).head buffer
      listQueues maxCount qs buffer

/-- The fields that are written again when the current process is found in the buffer. -/
def refreshEntry (e : ProcessInfo) : ProcessInfo :=
  { e with
    state := k.state k.current
    rsp := k.rsp k.current
    rbp := k.rbp k.current
    foreground := k.isForeground k.current }

/-- The end of `scheduler_list_all_processes`. -/
def listCurrent (buffer : List ProcessInfo) (maxCount : ℕ) : List ProcessInfo :=
  if k.current ≠ 0 ∧ buffer.length < maxCount then
    match buffer.findIdx? fun e => decide (e.pid = k.pid k.current) with
    | some i => buffer.modify i (refreshEntry k)
    | none => addProcessToList k name k.current buffer maxCount
  else buffer

/-- `scheduler_list_all_processes`, for a buffer at the given address: the returned number and
the entries that were written. -/
def schedulerListAllProcesses (buffer maxCount : ℕ) : Option (ℕ × List ProcessInfo) :=
  if buffer = 0 ∨ maxCount = 0 then some (0, [])
  else do
    let entries ← listQueues k name maxCount
      [.ready 0, .ready 1, .ready 2, .blocked, .finished] []
    let entries := listCurrent k name entries maxCount
    some (entries.length, entries)

def syscallListProcesses (userAddr maxCount : ℕ) : Option (ℕ × List ProcessInfo) :=
  if userAddr = 0 ∨ maxCount = 0 ∨ maxProcessInfo < maxCount then some (0, [])
  else schedulerListAllProcesses k name userAddr maxCount

end Model

section Spec

variable {k : Kernel} {Q : QueueId → List ℕ} {name : ℕ → ℕ → UInt8} {maxCount n : ℕ}
variable {buffer : List ProcessInfo}

/-- What the listing relies on: the queues agree with the states of the processes, no process
is lost, the idle process is in no queue, and no two processes have the same identifier. -/
structure Listable (k : Kernel) (Q : QueueId → List ℕ) : Prop where
  placed : Placed k k.current Q
  held : ∀ p, k.allocated p = true → Held k Q p
  current : k.allocated k.current = true
  idle_running : k.state k.idleP = .running
  pid_injective : ∀ p p', k.allocated p = true → k.allocated p' = true → k.pid p = k.pid p' → p = p'

/-- The well-formed states of the scheduler can be listed. -/
theorem WellFormed.listable (W : WellFormed k Q)
    (hpid : ∀ p p', k.allocated p = true → k.allocated p' = true → k.pid p = k.pid p' → p = p') :
    Listable k Q :=
  ⟨W.placed, W.held, W.current, W.idle_running, hpid⟩

/-- The processes in the queues, in the order in which the queues are visited. -/
def queuedProcesses (Q : QueueId → List ℕ) : List ℕ :=
  Q (.ready 0) ++ (Q (.ready 1) ++ (Q (.ready 2) ++ (Q .blocked ++ Q .finished)))

/-- The processes that are listed when the buffer is large enough. -/
def listedProcesses (k : Kernel) (Q : QueueId → List ℕ) : List ℕ :=
  queuedProcesses Q ++
    if k.current ∈ queuedProcesses Q ∨ k.current = k.idleP then [] else [k.current]

theorem mem_queuedProcesses {p : ℕ} : p ∈ queuedProcesses Q ↔ ∃ q, p ∈ Q q := by
  simp only [queuedProcesses, List.mem_append]
  constructor
  · rintro (h | h | h | h | h)
    all_goals exact ⟨_, h⟩
  · rintro ⟨q, hq⟩
    cases q with
    | ready pr => fin_cases pr <;> simp_all
    | blocked => simp [hq]
    | finished => simp [hq]

theorem queuedProcesses_nodup (h : Rings k.queueNext k.queuePrev k.queues Q) :
    (queuedProcesses Q).Nodup := by
  have hone := fun q => (h.list q).nodup
  have hapart : ∀ q q', q ≠ q' → ∀ p ∈ Q q, p ∉ Q q' := fun q q' hne p hp hp' =>
    hne (h.disjoint q q' p hp hp')
  simp only [queuedProcesses, List.nodup_append', List.disjoint_left, List.mem_append, not_or]
  refine ⟨hone _, ⟨hone _, ⟨hone _, ⟨hone _, hone _, ?_⟩, ?_⟩, ?_⟩, ?_⟩
  · exact fun p hp => hapart _ _ (by decide) p hp
  · exact fun p hp => ⟨hapart _ _ (by decide) p hp, hapart _ _ (by decide) p hp⟩
  · exact fun p hp => ⟨hapart _ _ (by decide) p hp, hapart _ _ (by decide) p hp,
      hapart _ _ (by decide) p hp⟩
  · exact fun p hp => ⟨hapart _ _ (by decide) p hp, hapart _ _ (by decide) p hp,
      hapart _ _ (by decide) p hp, hapart _ _ (by decide) p hp⟩

/-- The loop over a queue appends its processes until the buffer is full. -/
theorem listQueue_eq {nx pv : ℕ → ℕ} {x : ℕ} {L : List ℕ}
    (hL : (x :: (L ++ [0])).IsChain (LinkedRing.Linked nx pv)) (h0 : 0 ∉ L)
    (hnx : ∀ p ∈ L, nx p = k.queueNext p) (hidle : k.idleP ∉ L) (hn : L.length < n) :
    listQueue k name maxCount n (nx x) buffer =
      some (buffer ++ (L.take (maxCount - buffer.length)).map (processInfo k name)) := by
  induction L generalizing x n buffer with
  | nil =>
      obtain ⟨m, rfl⟩ : ∃ m, n = m + 1 := ⟨n - 1, by omega⟩
      simp [listQueue, (List.isChain_cons_cons.mp hL).1.1]
  | cons p L ih =>
      obtain ⟨m, rfl⟩ : ∃ m, n = m + 1 := ⟨n - 1, by omega⟩
      obtain ⟨hxp, hp⟩ := List.isChain_cons_cons.mp hL
      simp only [List.mem_cons, not_or] at h0 hidle
      rw [List.forall_mem_cons] at hnx
      rw [hxp.1, listQueue]
      by_cases hroom : buffer.length < maxCount
      · have hadd : addProcessToList k name p buffer maxCount = buffer ++ [processInfo k name p] := by
          apply if_neg
          rintro (h | h | h)
          · exact h0.1 h.symm
          · omega
          · exact hidle.1 h.symm
        obtain ⟨m', hm'⟩ : ∃ m', maxCount - buffer.length = m' + 1 :=
          ⟨maxCount - buffer.length - 1, by omega⟩
        rw [if_pos ⟨Ne.symm h0.1, hroom⟩, hadd, ← hnx.1, ih hp h0.2 hnx.2 hidle.2 (by simpa using hn)]
        rw [List.length_append, List.length_singleton, hm', List.take_succ_cons, List.map_cons,
          List.append_assoc, List.singleton_append, show maxCount - (buffer.length + 1) = m' by omega]
      · rw [if_neg fun h => hroom h.2, show maxCount - buffer.length = 0 by omega]
        simp

theorem listQueue_spec {q : QueueId} (h : Rings k.queueNext k.queuePrev k.queues Q)
    (hidle : k.idleP ∉ Q q) :
    listQueue k name maxCount addressCount (k.queues q).head buffer =
      some (buffer ++ ((Q q).take (maxCount - buffer.length)).map (processInfo k name)) := by
  have hring := (h.list q).ring
  have hhead : update k.queueNext 0 (k.queues q).head 0 = (k.queues q).head :=
    Function.update_self ..
  rw [← hhead]
  exact listQueue_eq hring.2 hring.1 (fun p hp => Function.update_of_ne (h.ne_zero hp) _ _) hidle
    (hring.length_lt (h.bounded q) addressCount_pos)

theorem listQueues_spec (h : Rings k.queueNext k.queuePrev k.queues Q) (hidle : ∀ q, k.idleP ∉ Q q)
    (qs : List QueueId) :
    listQueues k name maxCount qs buffer =
      some (buffer ++
        ((qs.flatMap Q).take (maxCount - buffer.length)).map (processInfo k name)) := by
  induction qs generalizing buffer with
  | nil => simp [listQueues]
  | cons q qs ih =>
      rw [listQueues, listQueue_spec h (hidle q), Option.bind_eq_bind, Option.bind_some, ih,
        List.append_assoc, ← List.map_append, List.flatMap_cons, List.take_append]
      have hroom : maxCount - (buffer ++ ((Q q).take (maxCount - buffer.length)).map
          (processInfo k name)).length = maxCount - buffer.length - (Q q).length := by
        rw [List.length_append, List.length_map, List.length_take]
        omega
      rw [hroom]

theorem mem_listedProcesses (h : Listable k Q) {p : ℕ} :
    p ∈ listedProcesses k Q ↔ k.allocated p = true ∧ p ≠ k.idleP := by
  have hidle : k.idleP ∉ queuedProcesses Q := fun hm =>
    (mem_queuedProcesses.mp hm).elim fun q => h.placed.free_of_running h.idle_running q
  rw [listedProcesses, List.mem_append]
  constructor
  · rintro (hm | hm)
    · obtain ⟨q, hq⟩ := mem_queuedProcesses.mp hm
      exact ⟨(h.placed.of_mem hq).1, fun e => hidle (e ▸ hm)⟩
    · split at hm
      · cases hm
      · rename_i hnot
        obtain rfl := List.mem_singleton.mp hm
        exact ⟨h.current, fun e => hnot (Or.inr e)⟩
  · rintro ⟨ha, hp⟩
    rcases h.held p ha with rfl | rfl | hq
    · by_cases hm : k.current ∈ queuedProcesses Q
      · exact Or.inl hm
      · right
        rw [if_neg (by simp [hm, hp])]
        exact List.mem_singleton_self _
    · exact absurd rfl hp
    · exact Or.inl (mem_queuedProcesses.mpr hq)

theorem listedProcesses_nodup (h : Rings k.queueNext k.queuePrev k.queues Q) :
    (listedProcesses k Q).Nodup := by
  rw [listedProcesses]
  split
  · rw [List.append_nil]
    exact queuedProcesses_nodup h
  · rename_i hnot
    rw [List.nodup_append']
    refine ⟨queuedProcesses_nodup h, List.nodup_singleton _, ?_⟩
    rw [List.disjoint_singleton]
    exact fun hm => hnot (Or.inl hm)

/-- The number of processes besides the idle one. -/
theorem length_listedProcesses (h : Listable k Q) :
    (listedProcesses k Q).length = {p | k.allocated p = true ∧ p ≠ k.idleP}.ncard := by
  have hset : {p | k.allocated p = true ∧ p ≠ k.idleP} = ↑(listedProcesses k Q).toFinset := by
    ext p
    simp [mem_listedProcesses h]
  rw [hset, Set.ncard_coe_finset, List.toFinset_card_of_nodup
    (listedProcesses_nodup h.placed.rings)]

/-- Only the current process has an entry with its identifier. -/
theorem current_of_entry (h : Listable k Q) {e : ProcessInfo}
    (he : e ∈ (queuedProcesses Q).map (processInfo k name)) (hpid : e.pid = k.pid k.current) :
    k.current ∈ queuedProcesses Q ∧ e = processInfo k name k.current := by
  obtain ⟨p, hp, rfl⟩ := List.mem_map.mp he
  obtain ⟨q, hq⟩ := mem_queuedProcesses.mp hp
  obtain rfl := h.pid_injective p k.current (h.placed.of_mem hq).1 h.current hpid
  exact ⟨hp, rfl⟩

/-- The current process is added unless the queues have listed it already. -/
theorem listCurrent_spec (h : Listable k Q) :
    listCurrent k name (((queuedProcesses Q).take maxCount).map (processInfo k name)) maxCount =
      ((listedProcesses k Q).take maxCount).map (processInfo k name) := by
  have hc := (h.placed.valid _ h.current).1
  rw [listCurrent, List.length_map, List.length_take]
  by_cases hroom : (queuedProcesses Q).length < maxCount
  · rw [if_pos ⟨hc, by omega⟩, List.take_of_length_le hroom.le]
    split
    · rename_i i hfind
      obtain ⟨hi, hpid, -⟩ := List.findIdx?_eq_some_iff_getElem.mp hfind
      obtain ⟨hmem, hentry⟩ := current_of_entry h (List.getElem_mem hi) (of_decide_eq_true hpid)
      rw [listedProcesses, if_pos (Or.inl hmem), List.append_nil, List.take_of_length_le hroom.le]
      -- the fields that are written again have not changed since
      apply List.ext_getElem?
      intro j
      rw [List.getElem?_modify]
      split
      · rename_i hij
        subst hij
        rw [List.getElem?_eq_getElem hi, hentry]
        rfl
      · exact id_map _
    · rename_i hfind
      have hnot : k.current ∉ queuedProcesses Q := by
        intro hmem
        have hne := List.findIdx?_eq_none_iff.mp hfind _ (List.mem_map_of_mem hmem)
        simp [processInfo] at hne
      rw [addProcessToList, listedProcesses, List.length_map]
      by_cases hidle : k.current = k.idleP
      · rw [if_pos (Or.inr (Or.inr hidle)), if_pos (Or.inr hidle), List.append_nil,
          List.take_of_length_le hroom.le]
      · rw [if_neg (by simp [hc, hidle, hroom]), if_neg (by simp [hnot, hidle]),
          List.take_of_length_le (by simp; omega), List.map_append]
        rfl
  · rw [if_neg fun hand => by omega, listedProcesses, List.take_append_of_le_length (by omega)]

/-- The listing is a prefix of the listed processes. -/
theorem schedulerListAllProcesses_spec (h : Listable k Q) {address : ℕ} (haddress : address ≠ 0)
    (hmax : 1 ≤ maxCount) :
    schedulerListAllProcesses k name address maxCount =
      some (min maxCount (listedProcesses k Q).length,
        ((listedProcesses k Q).take maxCount).map (processInfo k name)) := by
  have hidle : ∀ q, k.idleP ∉ Q q := h.placed.free_of_running h.idle_running
  have hqueues : ([.ready 0, .ready 1, .ready 2, .blocked, .finished] : List QueueId).flatMap Q =
      queuedProcesses Q := by
    simp [queuedProcesses]
  rw [schedulerListAllProcesses, if_neg (by simp [haddress]; omega),
    listQueues_spec h.placed.rings hidle, hqueues, Option.bind_eq_bind, Option.bind_some]
  simp only [List.nil_append, List.length_nil, Nat.sub_zero, listCurrent_spec h, List.length_map,
    List.length_take]

end Spec

/-- The listing names as many processes besides the idle one as there are and as the buffer
takes, each once and with its present state, priority and foreground flag. -/
theorem list_all_processes_complete {k : Kernel} {Q : QueueId → List ℕ} {name : ℕ → ℕ → UInt8}
    {address maxCount : ℕ} (h : Listable k Q) (haddress : address ≠ 0) (hmax : 1 ≤ maxCount) :
    ∃ count entries, schedulerListAllProcesses k name address maxCount = some (count, entries) ∧
      (maxCount ≤ maxProcessInfo →
        syscallListProcesses k name address maxCount = some (count, entries)) ∧
      count = min maxCount {p | k.allocated p = true ∧ p ≠ k.idleP}.ncard ∧
      entries.length = count ∧ (entries.map ProcessInfo.pid).Nodup ∧
      ∀ e ∈ entries, ∃ p, k.allocated p = true ∧ p ≠ k.idleP ∧ e.pid = k.pid p ∧
        e.name = copyName (name p) ∧ e.state = k.state p ∧ e.priority = k.priority p ∧
        e.rsp = k.rsp p ∧ e.rbp = k.rbp p ∧ e.foreground = k.isForeground p := by
  have hcall : schedulerListAllProcesses k name address maxCount = _ :=
    schedulerListAllProcesses_spec h haddress hmax
  refine ⟨_, _, hcall, fun hle => ?_, ?_, ?_, ?_, ?_⟩
  · rw [syscallListProcesses, if_neg (by omega), hcall]
  · rw [length_listedProcesses h]
  · rw [List.length_map, List.length_take]
  · rw [List.map_map]
    refine List.Nodup.map_on ?_ ((listedProcesses_nodup h.placed.rings).sublist
      (List.take_sublist ..))
    intro p hp p' hp' hpid
    have hlisted : ∀ a ∈ (listedProcesses k Q).take maxCount, k.allocated a = true := fun a ha =>
      ((mem_listedProcesses h).mp (List.mem_of_mem_take ha)).1
    exact h.pid_injective p p' (hlisted p hp) (hlisted p' hp') hpid
  · intro e he
    obtain ⟨p, hp, rfl⟩ := List.mem_map.mp he
    obtain ⟨ha, hidle⟩ := (mem_listedProcesses h).mp (List.mem_of_mem_take hp)
    exact ⟨p, ha, hidle, rfl, rfl, rfl, rfl, rfl, rfl, rfl⟩

/-- After the start and one creation the listing finds the shell and its child. -/
theorem list_all_processes_complete_boot :
    ∃ k k' Q entries, bootSystem 16 8192 48 12288 1 = some k ∧
      schedulerSpawnProcess k ⟨1, 48, 2, false, 0, 0, 64, 32768⟩ = some (64, k') ∧ Listable k' Q ∧
      schedulerListAllProcesses k' (fun _ _ => 0) 4096 4 = some (2, entries) ∧
      entries.length = 2 ∧ (entries.map ProcessInfo.pid).Nodup ∧
      ∀ e ∈ entries, e.pid = 2 ∨ e.pid = 3 := by
  have hlt : ∀ a, a ≤ 64 → a < addressCount := by
    intro a ha
    unfold addressCount
    omega
  have hcalc : ((bootSystem 16 8192 48 12288 1).bind fun k =>
      (schedulerSpawnProcess k ⟨1, 48, 2, false, 0, 0, 64, 32768⟩).map fun x =>
        decide (k.allocated 48 = true ∧ k.allocated 64 = false ∧ x.1 = 64)) = some true := by
    decide +kernel
  obtain ⟨k, hboot, hcalc⟩ := Option.bind_eq_some_iff.mp hcalc
  obtain ⟨⟨p, k'⟩, hspawn, hvalue⟩ := Option.map_eq_some_iff.mp hcalc
  obtain ⟨hparent, hfresh, hp⟩ := of_decide_eq_true hvalue
  dsimp only at hp
  subst hp
  have hm : BootMemory 16 8192 48 12288 1 :=
    ⟨by decide, by decide, by decide, by decide, by decide, by decide⟩
  obtain ⟨Q, pr, fdp, l, rfl, W⟩ := bootSystem_spawned hm (hlt 16 (by decide)) (hlt 48 (by decide))
    hboot ⟨fun _ => ⟨hlt 64 le_rfl, hfresh⟩, fun _ => hparent⟩ (by decide) (by decide) (by decide)
    hspawn
  have hbooted := bootSystem_spec hm hboot
  obtain ⟨hidle, hshell, hnext⟩ := hbooted.pid
  have halloc : ∀ p, update k.allocated 64 true p = true ↔ p = 16 ∨ p = 48 ∨ p = 64 := by
    intro p
    rw [Function.update_apply]
    split
    · simp [*]
    · rw [hbooted.allocated]
      simp [*]
  have hpid : update k.pid 64 k.nextPid 16 = 1 ∧ update k.pid 64 k.nextPid 48 = 2 ∧
      update k.pid 64 k.nextPid 64 = 3 := by
    rw [Function.update_of_ne (by decide), Function.update_of_ne (by decide), Function.update_self]
    exact ⟨hidle, hshell, hnext⟩
  have hdistinct : ∀ p p', update k.allocated 64 true p = true →
      update k.allocated 64 true p' = true →
      update k.pid 64 k.nextPid p = update k.pid 64 k.nextPid p' → p = p' := by
    intro p p' hp hp' heq
    rcases (halloc p).mp hp with rfl | rfl | rfl
    all_goals rcases (halloc p').mp hp' with rfl | rfl | rfl
    all_goals first | rfl | omega
  obtain ⟨count, entries, hcall, -, hcount, hlength, hnodup, hentry⟩ := list_all_processes_complete
    (W.listable hdistinct) (show 4096 ≠ 0 by decide) (show 1 ≤ 4 by decide)
  have hset : {p | update k.allocated 64 true p = true ∧ p ≠ k.idleP} = {48, 64} := by
    ext p
    simp only [Set.mem_ofPred_eq, halloc, hbooted.idleP, Set.mem_insert_iff, Set.mem_singleton_iff]
    omega
  have htwo : count = 2 := by
    rw [hcount]
    exact (congrArg (min 4) ((congrArg Set.ncard hset).trans (Set.ncard_pair (by decide)))).trans
      (by decide)
  subst htwo
  refine ⟨k, _, Q, entries, hboot, hspawn, W.listable hdistinct, hcall, hlength, hnodup,
    fun e he => ?_⟩
  obtain ⟨p, hp, hne, hpid', -⟩ := hentry e he
  rw [hpid']
  rcases (halloc p).mp hp with rfl | rfl | rfl
  · exact absurd hbooted.idleP.symm hne
  · exact Or.inl hpid.2.1
  · exact Or.inr hpid.2.2

end SoKernel
