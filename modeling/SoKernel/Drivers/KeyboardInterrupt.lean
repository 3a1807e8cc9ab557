import SoKernel.Lib.RingBuffer
import SoKernel.Proc.OpenEffects

/-!
# The keyboard interrupt

Embedding of the interrupt handler of `keyBoardDriver.c`, and the order in which characters come
out of the keyboard buffer. The calls may come in any order, with any changes of the rest of the
kernel between them.
-/

namespace SoKernel

open Function (update)

section Handler

/-- `scancode_table`, up to the last key that is not zero: the character without and with shift. -/
def scancodeTable : List (Char × Char) :=
  [('\x00', '\x00'), ('\x1b', '\x1b'), ('1', '!'), ('2', '@'), ('3', '#'), ('4', '$'), ('5', '%'),
    ('6', '^'), ('7', '&'), ('8', '*'), ('9', '('), ('0', ')'), ('-', '_'), ('=', '+'),
    ('\x08', '\x08'), ('\t', '\t'), ('q', 'Q'), ('w', 'W'), ('e', 'E'), ('r', 'R'), ('t', 'T'),
    ('y', 'Y'), ('u', 'U'), ('i', 'I'), ('o', 'O'), ('p', 'P'), ('[', '\x7b'), (']', '\x7d'),
    ('\n', '\n'), ('\x00', '\x00'), ('a', 'A'), ('s', 'S'), ('d', 'D'), ('f', 'F'), ('g', 'G'),
    ('h', 'H'), ('j', 'J'), ('k', 'K'), ('l', 'L'), (';', ':'), ('\x27', '\x22'), ('|', '|'),
    ('\x00', '\x00'), ('\x5c', '\x5c'), ('z', 'Z'), ('x', 'X'), ('c', 'C'), ('v', 'V'), ('b', 'B'),
    ('n', 'N'), ('m', 'M'), (',', '<'), ('.', '>'), ('/', '?'), ('\x00', '\x00'), ('\x00', '\x00'),
    ('\x00', '\x00'), (' ', ' ')]

def keyCount : ℕ := 0x54

def ascii (c : Char) : UInt8 := c.toNat.toUInt8

/-- The scancodes that `scToAscii` maps to zero before it looks into the table: `1`, the arrows,
`ESC` and `SC_DELETE`. -/
def silentScancodes : List UInt8 := [1, 0x48, 0x50, 0x4B, 0x4D, 0x1B, 0x53]

def scToAscii (k : Kernel) (scancode : UInt8) : UInt8 :=
  if scancode ∈ silentScancodes then 0
  else if scancode.toNat < keyCount then
    let key := scancodeTable.getD scancode.toNat ('\x00', '\x00')
    let c := ascii (if k.activeShift then key.2 else key.1)
    if k.activeCapsLock ∧ ascii 'a' ≤ c ∧ c ≤ ascii 'z' then c - 32 else c
  else 0

def updateFlags (k : Kernel) (scancode : UInt8) : Kernel :=
  if scancode = 0x1D then { k with activeCtrl := true }
  else if scancode = 0x9D then { k with activeCtrl := false }
  else if scancode = 0x2A ∨ scancode = 0x36 then { k with activeShift := true }
  else if scancode = 0x2A + 0x80 ∨ scancode = 0x36 + 0x80 then { k with activeShift := false }
  else if scancode = 0x3A then { k with activeCapsLock := !k.activeCapsLock }
  else k

/-- The part of the handler that notes in `key_states` which keys are down. -/
def noteKey (k : Kernel) (scancode : UInt8) : Kernel :=
  if scancode &&& 0x80 ≠ 0 then
    { k with keyStates := update k.keyStates (scancode &&& 0x7F).toNat false }
  else { k with keyStates := update k.keyStates scancode.toNat true }

/-- The search of `scheduler_get_foreground_pid` in the given queues. -/
def foregroundInQueues (k : Kernel) : List QueueId → Option ℕ
  | [] => some 0
  | q :: qs => do
      let found ← LinkedRing.walkFind k.queueNext 0 (fun it => k.isForeground it) addressCount
        (k.queues q).head
      match found with
      | some p => some (k.pid p)
      | none => foregroundInQueues k qs

def schedulerGetForegroundPid (k : Kernel) : Option ℕ :=
  if k.current ≠ 0 ∧ k.current ≠ k.idleP ∧ k.isForeground k.current then some (k.pid k.current)
  else foregroundInQueues k [.ready 0, .ready 1, .ready 2, .blocked]

/-- What a call did to the characters of the keyboard buffer. -/
inductive KeyEvent where
  /-- `buffer_push` has returned `1`. -/
  | accepted (c : UInt8)
  /-- `buffer_push` has returned `0`. -/
  | rejected (c : UInt8)
  | cleared
  /-- `keyboard_read_getchar` has returned a character. -/
  | returned (c : UInt8)
  | none
  deriving DecidableEq

/-- Pushing a character, with a signal for the waiting reader. -/
def pushKey (k : Kernel) (c : UInt8) : Option (KeyEvent × Kernel) :=
  match bufferPush k.keyboard c with
  | (false, _) => some (.rejected c, k)
  | (true, b) =>
      let k := { k with keyboard := b }
      if k.kbdSemId ≠ 0 then (semSignal k k.kbdSemId).map fun k => (.accepted c, k)
      else some (.accepted c, k)

def keyboardInterruptHandler (k : Kernel) (scancode : UInt8) : Option (KeyEvent × Kernel) :=
  let k := noteKey (updateFlags k scancode) scancode
  let c := scToAscii k scancode
  if k.activeCtrl ∧ (c = ascii 'c' ∨ c = ascii 'C') then do
    let fgPid ← schedulerGetForegroundPid k
    if fgPid ≠ 0 then
      let (_, k) ← schedulerKillByPid k fgPid
      (keyboardClearBuffer k).map fun k => (.cleared, k)
    else some (.none, k)
  else if k.activeCtrl ∧ (c = ascii 'd' ∨ c = ascii 'D') then pushKey k 0x04
  else if c ≠ 0 then pushKey k c
  else some (.none, k)

end Handler

section Calls

inductive KeyboardCall where
  | interrupt (scancode : UInt8)
  | readGetchar
  | clearBuffer

def keyboardExec (k : Kernel) : KeyboardCall → Option (KeyEvent × Kernel)
  | .interrupt scancode => keyboardInterruptHandler k scancode
  | .readGetchar =>
      let (c, k) := keyboardReadGetchar k
      some (if c = 0 then .none else .returned c, k)
  | .clearBuffer => (keyboardClearBuffer k).map fun k => (.cleared, k)

/-- The runs from an empty buffer: what the calls did so far and the state reached. Between the
calls the rest of the kernel may change in any way. -/
inductive KeyboardRun : List KeyEvent → Kernel → Prop
  | start {k} (empty : k.keyboard = bootKernel.keyboard) : KeyboardRun [] k
  | call {t k c e k'} (run : KeyboardRun t k) (step : keyboardExec k c = some (e, k')) :
      KeyboardRun (t ++ [e]) k'
  | other {t k k'} (run : KeyboardRun t k) (same : k'.keyboard = k.keyboard) : KeyboardRun t k'

/-- The characters accepted since the last clear. -/
def accepted (t : List KeyEvent) : List UInt8 :=
  t.foldl (fun log e => match e with
    | .accepted c => log ++ [c]
    | .cleared => []
    | _ => log) []

/-- The characters returned since the last clear. -/
def returned (t : List KeyEvent) : List UInt8 :=
  t.foldl (fun log e => match e with
    | .returned c => log ++ [c]
    | .cleared => []
    | _ => log) []

/-- The characters in the buffer, from `readIndex` on. -/
def CircleBuffer.contents (b : CircleBuffer) : List UInt8 :=
  RingBuffer.contents b.buffer bufferSize b.readIndex b.size

/-- The size and the positions of the buffer are in range and agree. -/
structure CircleBuffer.InRange (b : CircleBuffer) : Prop where
  size_le : b.size ≤ bufferSize
  readIndex_lt : b.readIndex < bufferSize
  writeIndex_lt : b.writeIndex < bufferSize
  writeIndex_eq : b.writeIndex = (b.readIndex + b.size) % bufferSize

end Calls

section Buffer

variable {b : CircleBuffer} {c : UInt8}

theorem bufferPush_full (hfull : b.size = bufferSize) : bufferPush b c = (false, b) := by
  rw [bufferPush, bufferFull, decide_eq_true hfull]
  rfl

theorem bufferPush_room (hroom : b.size ≠ bufferSize) : bufferPush b c = (true,
    { b with
      buffer := update b.buffer b.writeIndex c
      writeIndex := (b.writeIndex + 1) % bufferSize
      size := b.size + 1 }) := by
  rw [bufferPush, bufferFull, decide_eq_false hroom]
  rfl

theorem bufferPop_empty (hempty : b.size = 0) : bufferPop b = (0, b) := by
  rw [bufferPop, bufferEmpty, decide_eq_true hempty]
  rfl

theorem bufferPop_nonempty (hne : b.size ≠ 0) : bufferPop b = (b.buffer b.readIndex,
    { b with
      readIndex := (b.readIndex + 1) % bufferSize
      size := b.size - 1 }) := by
  rw [bufferPop, bufferEmpty, decide_eq_false hne]
  rfl

theorem CircleBuffer.InRange.clear (b : CircleBuffer) :
    (bufferClear b).InRange ∧ (bufferClear b).contents = [] :=
  have hpos : 0 < bufferSize := by decide
  ⟨⟨Nat.zero_le _, hpos, hpos, rfl⟩, rfl⟩

/-- A character goes behind the contents. -/
theorem CircleBuffer.InRange.push (h : b.InRange) (hroom : b.size ≠ bufferSize) (c : UInt8) :
    (bufferPush b c).2.InRange ∧ (bufferPush b c).2.contents = b.contents ++ [c] := by
  have hlt : b.size < bufferSize := lt_of_le_of_ne h.size_le hroom
  rw [bufferPush_room hroom]
  refine ⟨⟨hlt, h.readIndex_lt, Nat.mod_lt _ (by decide), ?_⟩, ?_⟩
  · dsimp only
    rw [h.writeIndex_eq, Nat.mod_add_mod, Nat.add_assoc]
  · rw [CircleBuffer.contents, CircleBuffer.contents]
    dsimp only
    rw [h.writeIndex_eq]
    exact RingBuffer.contents_push hlt

/-- The first character of the contents is taken. -/
theorem CircleBuffer.InRange.pop (h : b.InRange) (hne : b.size ≠ 0) :
    (bufferPop b).2.InRange ∧ b.contents = (bufferPop b).1 :: (bufferPop b).2.contents := by
  obtain ⟨n, hn⟩ := Nat.exists_eq_succ_of_ne_zero hne
  have hsize := h.size_le
  rw [bufferPop_nonempty hne]
  refine ⟨⟨by dsimp only; omega, Nat.mod_lt _ (by decide), h.writeIndex_lt, ?_⟩, ?_⟩
  · dsimp only
    rw [h.writeIndex_eq, Nat.mod_add_mod]
    congr 1
    omega
  · rw [CircleBuffer.contents, CircleBuffer.contents]
    dsimp only
    rw [hn]
    exact RingBuffer.contents_shift h.readIndex_lt

end Buffer

section Effects

variable {k k' : Kernel} {e : KeyEvent} {c : UInt8}

/-- What a call does to the keyboard buffer. -/
inductive KeyEffect (b : CircleBuffer) : KeyEvent → CircleBuffer → Prop
  | accepted (c : UInt8) (char : c ≠ 0) (room : b.size ≠ bufferSize) :
      KeyEffect b (.accepted c) (bufferPush b c).2
  | rejected (c : UInt8) (full : b.size = bufferSize) : KeyEffect b (.rejected c) b
  | cleared (before : CircleBuffer) : KeyEffect b .cleared (bufferClear before)
  | read : KeyEffect b (if (bufferPop b).1 = 0 then .none else .returned (bufferPop b).1)
      (bufferPop b).2
  | none : KeyEffect b .none b

theorem KeyEffect.rejected_full {b b' : CircleBuffer} (h : KeyEffect b e b')
    (he : e = .rejected c) : b.size = bufferSize := by
  cases h with
  | rejected _ full => exact full
  | accepted => cases he
  | cleared => cases he
  | read =>
      split at he
      · cases he
      · cases he
  | none => cases he

theorem semSignal_keyboard {id : ℕ} (h : semSignal k id = some k') : k'.keyboard = k.keyboard := by
  obtain ⟨w, effect⟩ := semSignal_effect h
  cases effect with
  | missing => rfl
  | incremented => rfl
  | released => rfl

theorem keyboardClearBuffer_effect (b : CircleBuffer)
    (h : (keyboardClearBuffer k).map (fun k => (KeyEvent.cleared, k)) = some (e, k')) :
    KeyEffect b e k'.keyboard := by
  rw [keyboardClearBuffer_eq, Option.map_some] at h
  cases h
  exact .cleared k.keyboard

theorem pushKey_effect (hc : c ≠ 0) (h : pushKey k c = some (e, k')) :
    KeyEffect k.keyboard e k'.keyboard := by
  rw [pushKey] at h
  by_cases hfull : k.keyboard.size = bufferSize
  · rw [bufferPush_full hfull] at h
    cases h
    exact .rejected c hfull
  · have heffect : KeyEffect k.keyboard (.accepted c) (bufferPush k.keyboard c).2 :=
      .accepted c hc hfull
    rw [bufferPush_room hfull] at h heffect
    dsimp only at h
    split at h
    · obtain ⟨k₁, hsignal, heq⟩ := Option.map_eq_some_iff.mp h
      cases heq
      rw [semSignal_keyboard hsignal]
      exact heffect
    · cases h
      exact heffect

theorem noted_keyboard (k : Kernel) (scancode : UInt8) :
    (noteKey (updateFlags k scancode) scancode).keyboard = k.keyboard := by
  have hflags : (updateFlags k scancode).keyboard = k.keyboard := by
    rw [updateFlags]
    repeat' split
    all_goals rfl
  rw [noteKey]
  split <;> exact hflags

theorem keyboardInterruptHandler_effect {scancode : UInt8}
    (h : keyboardInterruptHandler k scancode = some (e, k')) :
    KeyEffect k.keyboard e k'.keyboard := by
  rw [keyboardInterruptHandler] at h
  have hsame := noted_keyboard k scancode
  generalize noteKey (updateFlags k scancode) scancode = k₁ at h hsame
  rw [← hsame]
  dsimp only at h
  split at h
  · obtain ⟨fgPid, -, h⟩ := Option.bind_eq_some_iff.mp h
    split at h
    · obtain ⟨⟨r, k₂⟩, -, h⟩ := Option.bind_eq_some_iff.mp h
      exact keyboardClearBuffer_effect _ h
    · cases h
      exact .none
  split at h
  · exact pushKey_effect (by decide) h
  split at h
  · exact pushKey_effect ‹_› h
  · cases h
    exact .none

theorem keyboardExec_effect {call : KeyboardCall} (h : keyboardExec k call = some (e, k')) :
    KeyEffect k.keyboard e k'.keyboard := by
  cases call with
  | interrupt => exact keyboardInterruptHandler_effect h
  | readGetchar =>
      cases h
      exact .read
  | clearBuffer => exact keyboardClearBuffer_effect _ h

end Effects

section Order

variable {t : List KeyEvent} {b b' : CircleBuffer} {e : KeyEvent} {k : Kernel}

theorem accepted_concat (t : List KeyEvent) (e : KeyEvent) :
    accepted (t ++ [e]) = match e with
      | .accepted c => accepted t ++ [c]
      | .cleared => []
      | _ => accepted t := by
  rw [accepted, List.foldl_append]
  rfl

theorem returned_concat (t : List KeyEvent) (e : KeyEvent) :
    returned (t ++ [e]) = match e with
      | .returned c => returned t ++ [c]
      | .cleared => []
      | _ => returned t := by
  rw [returned, List.foldl_append]
  rfl

/-- The buffer holds what was accepted and not yet returned, in order. -/
structure KeyLog (t : List KeyEvent) (b : CircleBuffer) : Prop where
  inRange : b.InRange
  chars : ∀ c ∈ b.contents, c ≠ 0
  order : returned t ++ b.contents = accepted t

theorem KeyLog.step (h : KeyLog t b) (effect : KeyEffect b e b') : KeyLog (t ++ [e]) b' := by
  cases effect with
  | accepted c char room =>
      obtain ⟨hrange, hcontents⟩ := h.inRange.push room c
      refine ⟨hrange, fun d hd => ?_, ?_⟩
      · rw [hcontents] at hd
        rcases List.mem_append.mp hd with hd | hd
        · exact h.chars d hd
        · exact List.mem_singleton.mp hd ▸ char
      · rw [returned_concat, accepted_concat, hcontents, ← List.append_assoc, h.order]
  | rejected =>
      refine ⟨h.inRange, h.chars, ?_⟩
      rw [returned_concat, accepted_concat]
      exact h.order
  | cleared before =>
      obtain ⟨hrange, hcontents⟩ := CircleBuffer.InRange.clear before
      refine ⟨hrange, by simp [hcontents], ?_⟩
      rw [returned_concat, accepted_concat, hcontents]
      rfl
  | read =>
      by_cases hempty : b.size = 0
      · rw [bufferPop_empty hempty, if_pos rfl]
        refine ⟨h.inRange, h.chars, ?_⟩
        rw [returned_concat, accepted_concat]
        exact h.order
      · obtain ⟨hrange, hcontents⟩ := h.inRange.pop hempty
        have hchar := h.chars (bufferPop b).1 (by rw [hcontents]; exact List.mem_cons_self)
        rw [if_neg hchar]
        refine ⟨hrange, fun d hd => h.chars d ?_, ?_⟩
        · rw [hcontents]
          exact List.mem_cons_of_mem _ hd
        · rw [returned_concat, accepted_concat, List.append_assoc, List.singleton_append, ← hcontents]
          exact h.order
  | none =>
      refine ⟨h.inRange, h.chars, ?_⟩
      rw [returned_concat, accepted_concat]
      exact h.order

theorem KeyboardRun.log (run : KeyboardRun t k) : KeyLog t k.keyboard := by
  induction run with
  | start empty =>
      rw [empty]
      exact ⟨⟨by decide, by decide, by decide, rfl⟩, by simp [CircleBuffer.contents, bootKernel], rfl⟩
  | call _ step ih => exact ih.step (keyboardExec_effect step)
  | other _ same ih => exact same ▸ ih

end Order

/-- After every run the characters returned since the last clear, followed by the contents of the
buffer, are the characters accepted since then. The size and the positions are in range, and the
next call rejects a character only if 256 accepted characters are unread. -/
theorem keyboard_buffer_in_order {t : List KeyEvent} {k : Kernel} (run : KeyboardRun t k) :
    returned t ++ k.keyboard.contents = accepted t ∧ k.keyboard.InRange ∧
      ∀ call c k', keyboardExec k call = some (.rejected c, k') →
        (accepted t).length = (returned t).length + 256 := by
  have hlog := run.log
  refine ⟨hlog.order, hlog.inRange, fun call c k' step => ?_⟩
  have hfull := (keyboardExec_effect step).rejected_full rfl
  rw [← hlog.order, List.length_append, CircleBuffer.contents, RingBuffer.length_contents, hfull]
  rfl

/-- The theorem at a run: an empty buffer, the key `A` and a read. -/
theorem keyboard_buffer_in_order_letter : ∃ t k, KeyboardRun t k ∧ t = [.accepted 97, .returned 97] ∧
    returned t ++ k.keyboard.contents = accepted t := by
  have hcalc : ((keyboardExec bootKernel (.interrupt 0x1E)).bind fun x =>
      (keyboardExec x.2 .readGetchar).map fun y => (decide (x.1 = .accepted 97),
        decide (y.1 = .returned 97))) = some (true, true) := by
    decide +kernel
  obtain ⟨⟨e, k⟩, hkey, hrest⟩ := Option.bind_eq_some_iff.mp hcalc
  obtain ⟨⟨e', k'⟩, hread, hevents⟩ := Option.map_eq_some_iff.mp hrest
  obtain ⟨he, he'⟩ := Prod.mk.inj hevents
  obtain rfl := of_decide_eq_true he
  obtain rfl := of_decide_eq_true he'
  have run := ((KeyboardRun.start rfl).call hkey).call hread
  exact ⟨_, k', run, rfl, (keyboard_buffer_in_order run).1⟩

end SoKernel
