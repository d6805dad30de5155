import ChocoOs.Lib.QueueLog
import ChocoOs.Lib.Ring
import ChocoOs.Lib.Transition
import Mathlib.Logic.Function.Iterate

/-!
# The event queue of the keyboard

The keyboard interrupt pushes events into a ring of 128 slots, the thread that polls takes them out.
A step of that thread is one access to memory, and the interrupt may come between any two of them.
What became of every push is recorded beside the queue.
-/

namespace ChocoOs.Keyboard
open ProgLib

/-- `KeyCode` (`keyboard.h:20-36`) -/
inductive KeyCode where
  | keyNone
  | keyChar
  | keyUp
  | keyDown
  | keyLeft
  | keyRight
  | keyHome
  | keyEnd
  | keyPgup
  | keyPgdn
  | keyDelete
  | keyEscape
  | keyTab
  | keyF1
  | keyF2
  | keyF3
  | keyF4
  deriving DecidableEq, Repr

/-- `KeyEvent` (`keyboard.h:38-44`) -/
structure KeyEvent where
  code : KeyCode
  ch : UInt8
  ctrl : Bool
  alt : Bool
  deriving DecidableEq, Repr

/-- `EVENT_QUEUE_SIZE` -/
def eventQueueSize : Nat := 128

/-- `event_queue`, `eq_read` and `eq_write` (`keyboard.c:59-61`). -/
structure Queue where
  slots : Nat → KeyEvent
  eqRead : Nat
  eqWrite : Nat

/-- `push_event` (`keyboard.c:82-89`) -/
def Queue.pushEvent (q : Queue) (ev : KeyEvent) : Queue :=
  let next := (q.eqWrite + 1) % eventQueueSize
  if next = q.eqRead then q
  else { q with slots := fun i => if i = q.eqWrite then ev else q.slots i, eqWrite := next }

/-- `kbd_poll_event` (`keyboard.c:191-198`); `none` is `false`. -/
def Queue.kbdPollEvent (q : Queue) : Queue × Option KeyEvent :=
  if q.eqRead = q.eqWrite then (q, none)
  else ({ q with eqRead := (q.eqRead + 1) % eventQueueSize }, some (q.slots q.eqRead))

/-- `kbd_flush` (`keyboard.c:223-226`) -/
def Queue.kbdFlush (q : Queue) : Queue := { q with eqRead := q.eqWrite }

/-- The next access of the polling thread, with what it has loaded. -/
inductive Pc where
  | idle
  | testRead
  | testWrite (r : Nat)
  | loadSlot
  | copyCode (i : Nat)
  | copyCh (i : Nat) (code : KeyCode)
  | copyCtrl (i : Nat) (code : KeyCode) (ch : UInt8)
  | copyAlt (i : Nat) (code : KeyCode) (ch : UInt8) (ctrl : Bool)
  | loadNext (ev : KeyEvent)
  | storeNext (ev : KeyEvent) (j : Nat)
  | flushLoad
  | flushStore (w : Nat)

/-- The queue, the polling thread, what became of every push, and what `kbd_poll_event` returned. -/
structure Kbd where
  queue : Queue
  pc : Pc
  log : QueueLog KeyEvent
  returned : List KeyEvent

/-- The interrupt pushes an event; a call begins; the polling thread makes its next access. -/
inductive KbdEvent where
  | interrupt (ev : KeyEvent)
  | poll
  | flush
  | access

/-- The next access of the polling thread. The log follows what the access means: the store of the
    index returns the oldest event, a flush takes out what was pending when it loaded the index. -/
def Kbd.access (s : Kbd) : Kbd :=
  match s.pc with
  | .idle => s
  | .testRead => { s with pc := .testWrite s.queue.eqRead }
  | .testWrite r => { s with pc := if r = s.queue.eqWrite then .idle else .loadSlot }
  | .loadSlot => { s with pc := .copyCode s.queue.eqRead }
  | .copyCode i => { s with pc := .copyCh i (s.queue.slots i).code }
  | .copyCh i code => { s with pc := .copyCtrl i code (s.queue.slots i).ch }
  | .copyCtrl i code ch => { s with pc := .copyAlt i code ch (s.queue.slots i).ctrl }
  | .copyAlt i code ch ctrl => { s with pc := .loadNext ⟨code, ch, ctrl, (s.queue.slots i).alt⟩ }
  | .loadNext ev => { s with pc := .storeNext ev s.queue.eqRead }
  | .storeNext ev j =>
    { queue := { s.queue with eqRead := (j + 1) % eventQueueSize }, pc := .idle
      log := s.log.pop, returned := s.returned ++ [ev] }
  | .flushLoad => { s with pc := .flushStore s.queue.eqWrite, log := s.log.mark }
  | .flushStore w =>
    { s with queue := { s.queue with eqRead := w }, pc := .idle, log := s.log.clear }

/-- The ring keeps one slot free. -/
def capacity : Nat := eventQueueSize - 1

/-- One step. A call begins only where none is under way. -/
def Kbd.step (s : Kbd) (e : KbdEvent) : Kbd :=
  match e, s.pc with
  | .interrupt ev, _ => { s with queue := s.queue.pushEvent ev, log := s.log.push capacity ev }
  | .poll, .idle => { s with pc := .testRead }
  | .flush, .idle => { s with pc := .flushLoad }
  | .access, _ => s.access
  | _, _ => s

def Kbd.start (slots : Nat → KeyEvent) : Kbd := ⟨⟨slots, 0, 0⟩, .idle, [], []⟩

/-- The events in the ring, the oldest first. -/
def Queue.contents (q : Queue) : List KeyEvent :=
  (List.range ((q.eqWrite + eventQueueSize - q.eqRead) % eventQueueSize)).map fun k =>
    q.slots ((q.eqRead + k) % eventQueueSize)

/-- The calls have returned, in their order, the pushes that are neither in the queue nor dropped nor
    flushed; the ring holds those in the queue; the test that a call is about to make fails only
    on an empty queue; and both indices name slots. -/
structure Kbd.Fifo (s : Kbd) : Prop where
  returned : s.returned = s.log.having .returned
  contents : s.queue.contents = s.log.inside
  test : ∀ r, s.pc = .testWrite r → (r = s.queue.eqWrite ↔ s.log.inside = [])
  indices : s.queue.eqRead < eventQueueSize ∧ s.queue.eqWrite < eventQueueSize

/-! ## Without interrupts -/

/-- The accesses of a call that is not interrupted do what the function does. -/
theorem access_poll {s : Kbd} (h : s.pc = .testRead) : ∃ n, (Kbd.access^[n] s).pc = .idle ∧
    (Kbd.access^[n] s).queue = s.queue.kbdPollEvent.1 ∧
    (Kbd.access^[n] s).returned = s.returned ++ s.queue.kbdPollEvent.2.toList := by
  obtain ⟨q, pc, log, returned⟩ := s
  obtain rfl : pc = .testRead := h
  by_cases hempty : q.eqRead = q.eqWrite
  · refine ⟨2, ?_, ?_, ?_⟩ <;> simp [Kbd.access, Queue.kbdPollEvent, hempty]
  · refine ⟨9, ?_, ?_, ?_⟩ <;> simp [Kbd.access, Queue.kbdPollEvent, hempty]

theorem access_flush {s : Kbd} (h : s.pc = .flushLoad) : ∃ n, (Kbd.access^[n] s).pc = .idle ∧
    (Kbd.access^[n] s).queue = s.queue.kbdFlush ∧
    (Kbd.access^[n] s).returned = s.returned := by
  obtain ⟨q, pc, log, returned⟩ := s
  obtain rfl : pc = .flushLoad := h
  exact ⟨2, rfl, rfl, rfl⟩

/-! ## The invariant -/

/-- What the polling thread has loaded. The oldest event stays where it is while it is copied. -/
def Pc.Means (p : Pc) (lo eqRead : Nat) (log : QueueLog KeyEvent) : Prop :=
  match p with
  | .idle | .testRead | .flushLoad => log.Steady
  | .testWrite r => log.Steady ∧ r = eqRead
  | .loadSlot => log.Steady ∧ ∃ ev, log.inside.head? = some ev
  | .copyCode i => log.Steady ∧ i = eqRead ∧ ∃ ev, log.inside.head? = some ev
  | .copyCh i code => log.Steady ∧ i = eqRead ∧ ∃ ev, log.inside.head? = some ev ∧ ev.code = code
  | .copyCtrl i code ch => log.Steady ∧ i = eqRead ∧
      ∃ ev, log.inside.head? = some ev ∧ ev.code = code ∧ ev.ch = ch
  | .copyAlt i code ch ctrl => log.Steady ∧ i = eqRead ∧
      ∃ ev, log.inside.head? = some ev ∧ ev.code = code ∧ ev.ch = ch ∧ ev.ctrl = ctrl
  | .loadNext ev => log.Steady ∧ log.inside.head? = some ev
  | .storeNext ev j => log.Steady ∧ log.inside.head? = some ev ∧ j = eqRead
  | .flushStore w => w = (lo + (log.having .leaving).length) % eventQueueSize

/-- `lo` events have left the ring, and the slots from there on hold those in the queue. -/
structure KbdInv (s : Kbd) (lo : Nat) : Prop where
  read : s.queue.eqRead = lo % eventQueueSize
  write : s.queue.eqWrite = (lo + s.log.inside.length) % eventQueueSize
  room : s.log.inside.length < eventQueueSize
  slots : ∀ k (h : k < s.log.inside.length),
    s.queue.slots ((lo + k) % eventQueueSize) = s.log.inside[k]
  ordered : s.log.Ordered
  returned : s.returned = s.log.having .returned
  means : s.pc.Means lo s.queue.eqRead s.log

variable {s : Kbd} {lo : Nat}

theorem kbdInv_start (slots : Nat → KeyEvent) : KbdInv (Kbd.start slots) 0 where
  read := rfl
  write := rfl
  room := Nat.succ_pos _
  slots := fun k h => absurd h (Nat.not_lt_zero k)
  ordered := List.Pairwise.nil
  returned := rfl
  means := fun _ hq => absurd hq List.not_mem_nil

/-- The indices are equal where nothing is in the queue. -/
theorem KbdInv.empty_iff (h : KbdInv s lo) :
    s.queue.eqRead = s.queue.eqWrite ↔ s.log.inside = [] := by
  rw [h.read, h.write, ← List.length_eq_zero_iff]
  have hroom := h.room
  constructor
  · intro heq
    have := ring_slot_inj ⟨Nat.le_refl lo, by omega⟩ ⟨Nat.le_add_right _ _, by omega⟩ heq
    omega
  · intro h0
    rw [h0, Nat.add_zero]

/-- The next write index meets the read index where the queue is full. -/
theorem KbdInv.full_iff (h : KbdInv s lo) :
    (s.queue.eqWrite + 1) % eventQueueSize = s.queue.eqRead ↔ s.log.inside.length = capacity := by
  have hroom := h.room
  have hsize : eventQueueSize = 128 := rfl
  have hcap : capacity = 127 := rfl
  rw [h.read, h.write, ring_succ]
  constructor
  · intro heq
    by_contra hne
    have := ring_slot_inj (n := eventQueueSize) (i := lo + s.log.inside.length + 1) (j := lo)
      ⟨by omega, by omega⟩ ⟨Nat.le_refl lo, by omega⟩ heq
    omega
  · intro heq
    rw [heq, show lo + capacity + 1 = lo + eventQueueSize from rfl, Nat.add_mod_right]

theorem KbdInv.contents (h : KbdInv s lo) : s.queue.contents = s.log.inside := by
  have hroom := h.room
  rw [Queue.contents, h.read, h.write,
    ring_distance (Nat.le_add_right _ _) (by omega), Nat.add_sub_cancel_left]
  refine List.ext_getElem (by simp) fun k hk hk' => ?_
  rw [List.getElem_map, List.getElem_range, Nat.mod_add_mod]
  exact h.slots k hk'

/-- The slot at the read index holds the oldest event. -/
theorem KbdInv.head (h : KbdInv s lo) {ev : KeyEvent} (hev : s.log.inside.head? = some ev) :
    s.queue.slots s.queue.eqRead = ev := by
  obtain ⟨rest, hrest⟩ : ∃ rest, s.log.inside = ev :: rest := List.head?_eq_some_iff.mp hev
  have hslot := h.slots 0 (by rw [hrest]; exact Nat.succ_pos _)
  rw [Nat.add_zero, ← h.read] at hslot
  rw [hslot]
  simp [hrest]

theorem KbdInv.fifo (h : KbdInv s lo) : s.Fifo := by
  refine ⟨h.returned, h.contents, fun r hr => ?_, ?_, ?_⟩
  · have hmeans := h.means
    rw [hr] at hmeans
    rw [hmeans.2]
    exact h.empty_iff
  · rw [h.read]
    exact Nat.mod_lt _ (by decide)
  · rw [h.write]
    exact Nat.mod_lt _ (by decide)

/-! ## The steps -/

/-- A push disturbs nothing that has been loaded. -/
theorem Pc.Means.push {p : Pc} {eqRead : Nat} {log : QueueLog KeyEvent}
    (h : p.Means lo eqRead log) (ev : KeyEvent) : p.Means lo eqRead (log.push capacity ev) := by
  have hhead : ∀ {e}, log.inside.head? = some e → (log.push capacity ev).inside.head? = some e := by
    intro e he
    rw [QueueLog.inside_push]
    split
    · exact he
    · obtain ⟨rest, hrest⟩ := List.head?_eq_some_iff.mp he
      rw [hrest]
      rfl
  have hsteady : log.Steady → (log.push capacity ev).Steady := QueueLog.steady_push capacity log ev
  cases p with
  | idle => exact hsteady h
  | testRead => exact hsteady h
  | testWrite r => exact ⟨hsteady h.1, h.2⟩
  | loadSlot => exact ⟨hsteady h.1, h.2.imp fun _ he => hhead he⟩
  | copyCode i => exact ⟨hsteady h.1, h.2.1, h.2.2.imp fun _ he => hhead he⟩
  | copyCh i code => exact ⟨hsteady h.1, h.2.1, h.2.2.imp fun _ he => ⟨hhead he.1, he.2⟩⟩
  | copyCtrl i code ch => exact ⟨hsteady h.1, h.2.1, h.2.2.imp fun _ he => ⟨hhead he.1, he.2⟩⟩
  | copyAlt i code ch ctrl => exact ⟨hsteady h.1, h.2.1, h.2.2.imp fun _ he => ⟨hhead he.1, he.2⟩⟩
  | loadNext e => exact ⟨hsteady h.1, hhead h.2⟩
  | storeNext e j => exact ⟨hsteady h.1, hhead h.2.1, h.2.2⟩
  | flushLoad => exact hsteady h
  | flushStore w =>
    rw [Pc.Means, QueueLog.having_push capacity log ev (.inr rfl)]
    exact h

theorem KbdInv.interrupt (h : KbdInv s lo) (ev : KeyEvent) :
    KbdInv (s.step (.interrupt ev)) lo := by
  have hroom := h.room
  have hsize : eventQueueSize = 128 := rfl
  have hcap : capacity = 127 := rfl
  have hinside := QueueLog.inside_push capacity s.log ev
  have hret := QueueLog.having_push capacity s.log ev (f := .returned) (.inl rfl)
  by_cases hfull : s.log.inside.length = capacity
  · have hstep : s.step (.interrupt ev) = { s with log := s.log.push capacity ev } := by
      simp only [Kbd.step, Queue.pushEvent, if_pos (h.full_iff.mpr hfull)]
    rw [if_pos hfull] at hinside
    rw [hstep]
    refine ⟨h.read, ?_, ?_, ?_, QueueLog.ordered_push _ _ _ h.ordered, hret ▸ h.returned,
      h.means.push ev⟩
    · simp only [hinside]; exact h.write
    · simp only [hinside]; exact h.room
    · simp only [hinside]; exact h.slots
  · have hstep : s.step (.interrupt ev) = { s with
        queue := { s.queue with
          slots := fun i => if i = s.queue.eqWrite then ev else s.queue.slots i
          eqWrite := (s.queue.eqWrite + 1) % eventQueueSize }
        log := s.log.push capacity ev } := by
      simp only [Kbd.step, Queue.pushEvent, if_neg (mt h.full_iff.mp hfull)]
    rw [if_neg hfull] at hinside
    rw [hstep]
    refine ⟨h.read, ?_, ?_, ?_, QueueLog.ordered_push _ _ _ h.ordered, hret ▸ h.returned,
      h.means.push ev⟩
    · simp only [hinside, List.length_append, List.length_singleton]
      rw [h.write, ring_succ, Nat.add_assoc]
    · simp only [hinside, List.length_append, List.length_singleton]
      omega
    · simp only [hinside]
      intro k hk
      rw [List.length_append, List.length_singleton] at hk
      rcases Nat.lt_succ_iff_lt_or_eq.mp hk with hlt | rfl
      · have hne : (lo + k) % eventQueueSize ≠ s.queue.eqWrite := by
          rw [h.write]
          intro heq
          have := ring_slot_inj (show lo ≤ lo + k ∧ lo + k < lo + eventQueueSize by omega)
            ⟨by omega, by omega⟩ heq
          omega
        rw [if_neg hne, List.getElem_append_left hlt]
        exact h.slots k hlt
      · rw [if_pos h.write.symm, List.getElem_concat_length rfl]

/-- An access that only loads. -/
theorem KbdInv.load (h : KbdInv s lo) {pc : Pc} (hpc : pc.Means lo s.queue.eqRead s.log) :
    KbdInv { s with pc := pc } lo := { h with means := hpc }

/-- The store of the index returns the oldest event. -/
theorem KbdInv.store (h : KbdInv s lo) {ev : KeyEvent} (hs : s.log.Steady)
    (hev : s.log.inside.head? = some ev) : KbdInv
      { queue := { s.queue with eqRead := (s.queue.eqRead + 1) % eventQueueSize }, pc := .idle
        log := s.log.pop, returned := s.returned ++ [ev] } (lo + 1) := by
  obtain ⟨rest, hrest⟩ : ∃ rest, s.log.inside = ev :: rest := List.head?_eq_some_iff.mp hev
  have hinside : s.log.pop.inside = rest := by
    rw [QueueLog.inside_pop hs, hrest]
    rfl
  have hroom := h.room
  rw [hrest, List.length_cons] at hroom
  refine ⟨?_, ?_, ?_, ?_, QueueLog.ordered_pop h.ordered hs, ?_, QueueLog.steady_pop hs⟩
  · simp only [h.read, ring_succ]
  · simp only [h.write, hinside, hrest, List.length_cons]
    rw [Nat.add_assoc, Nat.add_comm 1]
  · simp only [hinside]
    omega
  · simp only [hinside]
    intro k hk
    have hslot := h.slots (k + 1) (by rw [hrest, List.length_cons]; omega)
    simp only [hrest, List.getElem_cons_succ] at hslot
    rw [← hslot, Nat.add_assoc, Nat.add_comm 1]
  · rw [QueueLog.returned_pop h.ordered hs, hev, h.returned]
    rfl

/-- The store of a flush takes out what was marked. -/
theorem KbdInv.flush (h : KbdInv s lo) {w : Nat}
    (hw : w = (lo + (s.log.having .leaving).length) % eventQueueSize) :
    KbdInv { s with queue := { s.queue with eqRead := w }, pc := .idle, log := s.log.clear }
      (lo + (s.log.having .leaving).length) := by
  have hsplit := QueueLog.inside_clear h.ordered
  have hlen := congrArg List.length hsplit
  rw [List.length_append] at hlen
  have hroom := h.room
  refine ⟨hw, ?_, ?_, ?_, QueueLog.ordered_clear h.ordered, ?_, QueueLog.steady_clear s.log⟩
  · simp only [h.write, hlen, Nat.add_assoc]
  · simp only
    omega
  · simp only
    intro k hk
    have hslot := h.slots ((s.log.having .leaving).length + k) (by omega)
    rw [Nat.add_assoc, hslot]
    simp only [hsplit]
    rw [List.getElem_append_right (Nat.le_add_right _ _)]
    simp only [Nat.add_sub_cancel_left]
  · exact h.returned.trans (QueueLog.returned_clear s.log).symm

theorem KbdInv.access (h : KbdInv s lo) : ∃ lo, KbdInv s.access lo := by
  have hmeans := h.means
  unfold Kbd.access
  split
  · exact ⟨lo, h⟩
  · next hpc =>
    rw [hpc] at hmeans
    exact ⟨lo, h.load ⟨hmeans, rfl⟩⟩
  · next r hpc =>
    rw [hpc] at hmeans
    refine ⟨lo, h.load ?_⟩
    split
    · exact hmeans.1
    · next hne =>
      rw [hmeans.2, h.empty_iff] at hne
      exact ⟨hmeans.1, Option.isSome_iff_exists.mp (List.isSome_head?.mpr hne)⟩
  · next hpc =>
    rw [hpc] at hmeans
    exact ⟨lo, h.load ⟨hmeans.1, rfl, hmeans.2⟩⟩
  · next i hpc =>
    rw [hpc] at hmeans
    obtain ⟨hs, rfl, ev, hev⟩ := hmeans
    exact ⟨lo, h.load ⟨hs, rfl, ev, hev, by rw [h.head hev]⟩⟩
  · next i code hpc =>
    rw [hpc] at hmeans
    obtain ⟨hs, rfl, ev, hev, hcode⟩ := hmeans
    exact ⟨lo, h.load ⟨hs, rfl, ev, hev, hcode, by rw [h.head hev]⟩⟩
  · next i code ch hpc =>
    rw [hpc] at hmeans
    obtain ⟨hs, rfl, ev, hev, hcode, hch⟩ := hmeans
    exact ⟨lo, h.load ⟨hs, rfl, ev, hev, hcode, hch, by rw [h.head hev]⟩⟩
  · next i code ch ctrl hpc =>
    rw [hpc] at hmeans
    obtain ⟨hs, rfl, ev, hev, rfl, rfl, rfl⟩ := hmeans
    refine ⟨lo, h.load ⟨hs, ?_⟩⟩
    rw [h.head hev]
    exact hev
  · next ev hpc =>
    rw [hpc] at hmeans
    exact ⟨lo, h.load ⟨hmeans.1, hmeans.2, rfl⟩⟩
  · next ev j hpc =>
    rw [hpc] at hmeans
    obtain ⟨hs, hev, rfl⟩ := hmeans
    exact ⟨lo + 1, h.store hs hev⟩
  · next hpc =>
    refine ⟨lo, ⟨h.read, ?_, ?_, ?_, QueueLog.ordered_mark h.ordered, ?_, ?_⟩⟩
    · simp only [QueueLog.inside_mark]; exact h.write
    · simp only [QueueLog.inside_mark]; exact h.room
    · simp only [QueueLog.inside_mark]; exact h.slots
    · exact h.returned.trans (QueueLog.returned_mark s.log).symm
    · rw [Pc.Means, QueueLog.leaving_mark]
      exact h.write
  · next w hpc =>
    rw [hpc] at hmeans
    exact ⟨_, h.flush hmeans⟩

/-- For every interleaving of pushes with the accesses of the polling thread the queue is a bounded
    FIFO. -/
theorem keyboard_fifo (slots : Nat → KeyEvent) (es : List KbdEvent) :
    Always Kbd.step Kbd.Fifo (Kbd.start slots) es := by
  refine always_of_invariant (I := fun s => ∃ lo, KbdInv s lo) ?_ (fun _ hs => hs.elim fun _ h => h.fifo)
    ⟨0, kbdInv_start slots⟩ es
  rintro s e ⟨lo, h⟩
  have hmeans := h.means
  unfold Kbd.step
  split
  · exact ⟨lo, h.interrupt _⟩
  · next hpc =>
    rw [hpc] at hmeans
    exact ⟨lo, h.load hmeans⟩
  · next hpc =>
    rw [hpc] at hmeans
    exact ⟨lo, h.load hmeans⟩
  · exact h.access
  · exact ⟨lo, h⟩

end ChocoOs.Keyboard
