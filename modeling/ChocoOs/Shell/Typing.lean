import ChocoOs.Keyboard.Handler
import ChocoOs.Shell.EditorRun

/-!
# Typing

From the bytes of the keyboard to the lines that the shell gets. The interrupt may come at any time between
two rounds of the shell.
-/

namespace ChocoOs.Shell
open ProgLib Keyboard

/-! ## The queue between the rounds -/

/-- The queue holds these events. -/
structure Pending (q : Queue) (evs : List KeyEvent) : Prop where
  contents : q.contents = evs
  read : q.eqRead < eventQueueSize
  write : q.eqWrite < eventQueueSize

theorem Pending.length {q : Queue} {evs : List KeyEvent} (h : Pending q evs) :
    evs.length = (q.eqWrite + eventQueueSize - q.eqRead) % eventQueueSize := by
  rw [← h.contents, Queue.contents, List.length_map, List.length_range]

theorem Pending.push {q : Queue} {evs : List KeyEvent} (h : Pending q evs) (hroom : evs.length < capacity)
    (ev : KeyEvent) : Pending (q.pushEvent ev) (evs ++ [ev]) := by
  have hlen := h.length
  obtain ⟨rfl, hread, hwrite⟩ := h
  have hroom : q.contents.length < 127 := hroom
  simp only [eventQueueSize] at hlen hread hwrite
  have hnext : ¬ (q.eqWrite + 1) % eventQueueSize = q.eqRead := by
    simp only [eventQueueSize]
    omega
  have hcount : ((q.eqWrite + 1) % eventQueueSize + eventQueueSize - q.eqRead) % eventQueueSize =
      q.contents.length + 1 := by
    simp only [eventQueueSize]
    omega
  have hold : ∀ k < q.contents.length, ¬ (q.eqRead + k) % eventQueueSize = q.eqWrite := by
    intro k hk
    simp only [eventQueueSize]
    omega
  have hnew : (q.eqRead + q.contents.length) % eventQueueSize = q.eqWrite := by
    simp only [eventQueueSize]
    omega
  have hbefore : q.contents = (List.range q.contents.length).map fun k =>
      q.slots ((q.eqRead + k) % eventQueueSize) := by
    rw [hlen]
    rfl
  rw [Queue.pushEvent, if_neg hnext]
  refine ⟨?_, hread, Nat.mod_lt _ (by decide)⟩
  rw [Queue.contents]
  simp only
  rw [hcount, List.range_succ, List.map_append, List.map_singleton, if_pos hnew]
  congr 1
  conv_rhs => rw [hbefore]
  apply List.map_congr_left
  intro k hk
  exact if_neg (hold k (List.mem_range.mp hk))

theorem Pending.poll {q : Queue} {evs : List KeyEvent} (h : Pending q evs) :
    q.kbdPollEvent.2 = evs.head? ∧ Pending q.kbdPollEvent.1 evs.tail := by
  have hlen := h.length
  obtain ⟨hcontents, hread, hwrite⟩ := h
  cases evs with
  | nil =>
    have hempty : q.eqRead = q.eqWrite := by
      simp only [eventQueueSize, List.length_nil] at hlen hread hwrite
      omega
    rw [Queue.kbdPollEvent, if_pos hempty]
    exact ⟨rfl, hcontents, hread, hwrite⟩
  | cons ev evs =>
    have hne : ¬ q.eqRead = q.eqWrite := by
      intro heq
      simp only [eventQueueSize, List.length_cons] at hlen hread hwrite
      omega
    have hcount : (q.eqWrite + eventQueueSize - (q.eqRead + 1) % eventQueueSize) % eventQueueSize =
        evs.length := by
      simp only [eventQueueSize, List.length_cons] at hlen hread hwrite ⊢
      omega
    rw [Queue.contents, ← hlen, List.length_cons, List.range_succ_eq_map, List.map_cons, List.map_map,
      List.cons.injEq] at hcontents
    obtain ⟨hhead, htail⟩ := hcontents
    rw [Nat.add_zero, Nat.mod_eq_of_lt hread] at hhead
    rw [Queue.kbdPollEvent, if_neg hne]
    refine ⟨congrArg some hhead, ?_, Nat.mod_lt _ (by decide), hwrite⟩
    rw [Queue.contents]
    simp only [List.tail_cons]
    rw [hcount]
    conv_rhs => rw [← htail]
    apply List.map_congr_left
    intro k _
    have hplace : ((q.eqRead + 1) % eventQueueSize + k) % eventQueueSize =
        (q.eqRead + (k + 1)) % eventQueueSize := by
      simp only [eventQueueSize]
      omega
    rw [hplace]
    rfl

/-! ## What the keyboard pushes -/

/-- A modifier, or the release of a key. -/
def Silent (k : Driver) (sc : UInt8) : Prop :=
  (k.seenExtended = false ∧ (sc = scLshift ∨ sc = scRshift ∨ sc = scCapslock)) ∨ sc = scLctrl ∨
    sc = scLalt ∨ k.seenRelease = true

instance (k : Driver) (sc : UInt8) : Decidable (Silent k sc) := inferInstanceAs (Decidable (_ ∨ _))

/-- The event that the handler pushes for a byte. -/
def pushed (k : Driver) (sc : UInt8) : Option KeyEvent :=
  if sc = scExtended ∨ sc = scRelease ∨ Silent k sc then none else k.keyEvent k.seenExtended sc

/-- The events that it pushes for one byte after another. -/
def emits (k : Driver) : List UInt8 → List KeyEvent
  | [] => []
  | sc :: scs => (pushed k sc).toList ++ emits (k.keyboardHandler sc) scs

/-- The queue after a byte. -/
theorem queue_keyboardHandler (k : Driver) (sc : UInt8) :
    (k.keyboardHandler sc).queue = (pushed k sc).elim k.queue k.queue.pushEvent := by
  have hquiet : (sc = scExtended ∨ sc = scRelease ∨ Silent k sc) →
      (pushed k sc).elim k.queue k.queue.pushEvent = k.queue := fun h => by
    rw [pushed, if_pos h]
    rfl
  unfold Driver.keyboardHandler
  by_cases hext : sc = scExtended
  · rw [if_pos hext, hquiet (.inl hext)]
  by_cases hrel : sc = scRelease
  · rw [if_neg hext, if_pos hrel, hquiet (.inr (.inl hrel))]
  rw [if_neg hext, if_neg hrel, Driver.handleKey]
  by_cases hshift : k.seenExtended = false ∧ (sc = scLshift ∨ sc = scRshift)
  · rw [if_pos hshift, hquiet (.inr (.inr (.inl ⟨hshift.1, hshift.2.imp_right .inl⟩)))]
  by_cases hctrl : sc = scLctrl
  · rw [if_neg hshift, if_pos hctrl, hquiet (.inr (.inr (.inr (.inl hctrl))))]
  by_cases halt : sc = scLalt
  · rw [if_neg hshift, if_neg hctrl, if_pos halt, hquiet (.inr (.inr (.inr (.inr (.inl halt)))))]
  rw [if_neg hshift, if_neg hctrl, if_neg halt]
  by_cases hcaps : k.seenExtended = false ∧ sc = scCapslock
  · rw [if_pos hcaps, hquiet (.inr (.inr (.inl ⟨hcaps.1, .inr (.inr hcaps.2)⟩)))]
    split <;> rfl
  rw [if_neg hcaps]
  by_cases hseen : k.seenRelease = true
  · rw [if_pos hseen, hquiet (.inr (.inr (.inr (.inr (.inr hseen)))))]
  have hno : ¬ (sc = scExtended ∨ sc = scRelease ∨ Silent k sc) := by
    rintro (he | hr | ⟨hk, hl | hr | hc⟩ | hl | ha | hs)
    · exact hext he
    · exact hrel hr
    · exact hshift ⟨hk, .inl hl⟩
    · exact hshift ⟨hk, .inr hr⟩
    · exact hcaps ⟨hk, hc⟩
    · exact hctrl hl
    · exact halt ha
    · exact hseen hs
  rw [if_neg hseen, pushed, if_neg hno]
  have hevent : Driver.keyEvent { k with seenExtended := false, seenRelease := false } k.seenExtended sc =
      k.keyEvent k.seenExtended sc := rfl
  rw [hevent]
  cases k.keyEvent k.seenExtended sc <;> rfl

/-- The queue has no part in what is pushed. -/
theorem keyboardHandler_queue (k : Driver) (q : Queue) (sc : UInt8) :
    ∃ q', Driver.keyboardHandler { k with queue := q } sc = { k.keyboardHandler sc with queue := q' } := by
  unfold Driver.keyboardHandler
  by_cases hext : sc = scExtended
  · rw [if_pos hext, if_pos hext]
    exact ⟨q, rfl⟩
  by_cases hrel : sc = scRelease
  · rw [if_neg hext, if_neg hext, if_pos hrel, if_pos hrel]
    exact ⟨q, rfl⟩
  rw [if_neg hext, if_neg hext, if_neg hrel, if_neg hrel]
  obtain ⟨q₁, h₁⟩ := Board.handleKey_eq { k with seenExtended := false, seenRelease := false } k.seenExtended
    k.seenRelease sc
  obtain ⟨q₂, h₂⟩ := Board.handleKey_eq { k with queue := q, seenExtended := false, seenRelease := false }
    k.seenExtended k.seenRelease sc
  exact ⟨q₂, by rw [h₁]; exact h₂⟩

theorem emits_queue (scs : List UInt8) : ∀ (k : Driver) (q : Queue), emits { k with queue := q } scs = emits k scs := by
  induction scs with
  | nil => exact fun _ _ => rfl
  | cons sc scs ih =>
    intro k q
    obtain ⟨q', hq⟩ := keyboardHandler_queue k q sc
    rw [emits, emits, hq, ih]
    rfl

theorem emits_append (scs scs' : List UInt8) : ∀ k : Driver,
    emits k (scs ++ scs') = emits k scs ++ emits (scs.foldl Driver.keyboardHandler k) scs' := by
  induction scs with
  | nil => exact fun _ => rfl
  | cons sc scs ih =>
    intro k
    rw [List.cons_append, emits, emits, ih, List.append_assoc]
    rfl

/-! ## Strokes -/

/-- The bytes when the key of a character is pressed and released, with the left shift key where it needs
    one. -/
def stroke (ch : UInt8) : List UInt8 :=
  match sc2Ascii.find? fun p => p.2 = ch with
  | some p => [p.1, scRelease, p.1]
  | none =>
    match sc2AsciiShift.find? fun p => p.2 = ch with
    | some p => [scLshift, p.1, scRelease, p.1, scRelease, scLshift]
    | none => []

/-- A character of a line, the enter key or the backspace key. -/
def Typeable (ch : UInt8) : Prop := Printable ch ∨ ch = 10 ∨ ch = 8

instance (ch : UInt8) : Decidable (Typeable ch) := inferInstanceAs (Decidable (_ ∨ _))

/-- The event of a character. -/
def plain (ch : UInt8) : KeyEvent := ⟨.keyChar, ch, false, false⟩

/-- No key is down, and caps lock is off. -/
def resting (q : Queue) : Driver := ⟨q, false, false, false, false, false, false⟩

def emptyQueue : Queue := ⟨fun _ => plain 0, 0, 0⟩

/-- The flags of the driver. -/
def flags (k : Driver) : List Bool :=
  [k.shiftDown, k.ctrlDown, k.altDown, k.capsOn, k.seenRelease, k.seenExtended]

theorem stroke_table : ∀ n < 256, Typeable (UInt8.ofNat n) →
    emits (resting emptyQueue) (stroke (UInt8.ofNat n)) = [plain (UInt8.ofNat n)] ∧
      flags ((stroke (UInt8.ofNat n)).foldl Driver.keyboardHandler (resting emptyQueue)) =
        List.replicate 6 false := by
  decide +kernel

theorem eq_resting {k : Driver} (h : flags k = List.replicate 6 false) : k = resting k.queue := by
  obtain ⟨q, shift, ctrl, alt, caps, seenRelease, seenExtended⟩ := k
  simp only [flags, List.replicate, List.cons.injEq] at h
  obtain ⟨rfl, rfl, rfl, rfl, rfl, rfl, -⟩ := h
  rfl

theorem foldl_queue (scs : List UInt8) : ∀ (k : Driver) (q : Queue), ∃ q',
    scs.foldl Driver.keyboardHandler { k with queue := q } =
      { scs.foldl Driver.keyboardHandler k with queue := q' } := by
  induction scs with
  | nil => exact fun _ q => ⟨q, rfl⟩
  | cons sc scs ih =>
    intro k q
    obtain ⟨q', hq⟩ := keyboardHandler_queue k q sc
    rw [List.foldl_cons, List.foldl_cons, hq]
    exact ih _ q'

theorem emits_stroke {ch : UInt8} (hch : Typeable ch) (q : Queue) :
    emits (resting q) (stroke ch) = [plain ch] ∧
      ∃ q', (stroke ch).foldl Driver.keyboardHandler (resting q) = resting q' := by
  have htable := stroke_table ch.toNat ch.toNat_lt
  rw [UInt8.ofNat_toNat] at htable
  obtain ⟨hemits, hflags⟩ := htable hch
  obtain ⟨q', hq⟩ := foldl_queue (stroke ch) (resting emptyQueue) q
  refine ⟨(emits_queue _ (resting emptyQueue) q).trans hemits, q', ?_⟩
  refine hq.trans ?_
  rw [eq_resting hflags]
  rfl

/-- One character after another is typed. -/
theorem emits_strokes {cs : List UInt8} (hcs : ∀ ch ∈ cs, Typeable ch) : ∀ q : Queue,
    emits (resting q) (cs.flatMap stroke) = cs.map plain := by
  induction cs with
  | nil => exact fun _ => rfl
  | cons ch cs ih =>
    intro q
    obtain ⟨hemits, q', hq⟩ := emits_stroke (hcs ch List.mem_cons_self) q
    rw [List.flatMap_cons, emits_append, hemits, hq, ih fun x hx => hcs x (List.mem_cons_of_mem _ hx)]
    rfl

/-! ## What the editor makes of them -/

/-- A line and the lines before it, after one more character. -/
def typed (s : List UInt8 × List (List UInt8)) (ch : UInt8) : List UInt8 × List (List UInt8) :=
  if ch = 10 then ([], s.2 ++ if s.1 = [] then [] else [s.1])
  else if ch = 8 then (s.1.dropLast, s.2)
  else if s.1.length < lineMax - 1 then (s.1 ++ [ch], s.2)
  else s

/-- After the enter key the line is empty. -/
theorem submit_len {e e' : Editor} {left path : List UInt8} {out : List Output}
    (h : e.submit left path = some (e', out)) : e'.len = 0 := by
  unfold Editor.submit at h
  simp only [Option.bind_eq_bind] at h
  obtain ⟨buf, -, h⟩ := Option.bind_eq_some_iff.mp h
  split at h
  · obtain ⟨text, -, h⟩ := Option.bind_eq_some_iff.mp h
    obtain ⟨e'', -, h⟩ := Option.bind_eq_some_iff.mp h
    cases h
    rfl
  · cases h
    rfl

/-- A round that gets a character. -/
theorem editRound_plain {e : Editor} {lines : List (List UInt8)} (h : e.Ok lines) {ch : UInt8}
    (hch : Typeable ch) (left : LineBuf) (path : List UInt8) : ∃ e' lines',
      editRound (e, lines) ⟨plain ch, left, path⟩ = some (e', lines') ∧ e'.Ok lines' ∧
        (e'.line, lines') = typed (e.line, lines) ch := by
  have hlen := h.length_line
  have hmax : 0 < lineMax := by decide
  obtain ⟨e', out, hround, hok⟩ := keyRound_ok h (plain ch) left.2 path
  refine ⟨e', lines ++ e.submitted (plain ch), ?_, hok, ?_⟩
  · rw [editRound, hround]
    rfl
  rw [keyRound_plain rfl rfl, show (plain ch).ch = ch from rfl] at hround
  unfold typed
  by_cases henter : ch = 10
  · have hline : e'.line = [] := by
      have hzero : e'.len = 0 := by
        rw [if_pos henter] at hround
        exact submit_len hround
      rw [Editor.line, hzero]
      rfl
    have hempty : 0 < e.len ↔ ¬ e.line = [] := by
      rw [← List.length_eq_zero_iff]
      omega
    rw [if_pos henter, hline, Editor.submitted]
    refine congrArg (fun l => ([], lines ++ l)) ?_
    by_cases hpos : 0 < e.len
    · rw [if_pos ⟨rfl, rfl, henter, hpos⟩, if_neg (hempty.mp hpos)]
    · rw [if_neg fun hc => hpos hc.2.2.2, if_pos (Classical.not_not.mp fun hne => hpos (hempty.mpr hne))]
  have hsub : e.submitted (plain ch) = [] := submitted_of_not fun hc => henter hc.2.2
  rw [if_neg henter, hsub, List.append_nil]
  rw [if_neg henter] at hround
  by_cases hback : ch = 8
  · rw [if_pos hback]
    rw [if_pos hback] at hround
    by_cases hpos : 0 < e.len
    · rw [if_pos hpos] at hround
      cases hround
      rw [(h.erase hpos).1]
    · have hnil : e.line = [] := List.length_eq_zero_iff.mp (by omega)
      rw [if_neg hpos] at hround
      cases hround
      rw [hnil]
      rfl
  have hprint : Printable ch := by
    rcases hch with hprint | hten | height
    · exact hprint
    · exact absurd hten henter
    · exact absurd height hback
  rw [if_neg hback]
  rw [if_neg hback] at hround
  by_cases hroom : e.len < (lineMax : Int) - 1
  · obtain ⟨buf, hpoke, hline, -⟩ := h.type hroom hprint
    rw [if_pos ⟨hroom, hprint⟩] at hround
    rw [hpoke] at hround
    cases hround
    rw [if_pos (show e.line.length < lineMax - 1 by omega), hline]
  · rw [if_neg fun hc => hroom hc.1] at hround
    cases hround
    rw [if_neg (show ¬ e.line.length < lineMax - 1 by omega)]

/-! ## The keyboard and the shell -/

/-- The driver, the editor, and the lines that the shell has got. -/
structure Console where
  driver : Driver
  editor : Editor
  lines : List (List UInt8)

/-- The interrupt gets a byte, or `kbd_wait_event` (`keyboard.c:200-211`) of the shell polls. A command leaves
    something in the line, and a path for the next prompt. -/
inductive ConsoleEvent where
  | byte (sc : UInt8)
  | round (left : LineBuf) (path : List UInt8)

def Console.step (s : Console) : ConsoleEvent → Option Console
  | .byte sc => some { s with driver := s.driver.keyboardHandler sc }
  | .round left path =>
    let polled := s.driver.queue.kbdPollEvent
    let driver := { s.driver with queue := polled.1 }
    match polled.2 with
    | none => some { s with driver := driver }
    | some ev => (editRound (s.editor, s.lines) ⟨ev, left, path⟩).map fun r => ⟨driver, r.1, r.2⟩

/-- The bytes of the keyboard, in their order. -/
def bytesOf : List ConsoleEvent → List UInt8
  | [] => []
  | .byte sc :: es => sc :: bytesOf es
  | .round _ _ :: es => bytesOf es

/-- There is room in the queue whenever a byte comes. -/
def NeverFull (s : Console) (es : List ConsoleEvent) : Prop :=
  ∀ es₁ sc es₂ s', es = es₁ ++ .byte sc :: es₂ → es₁.foldlM Console.step s = some s' →
    s'.driver.queue.contents.length < capacity

theorem NeverFull.tail {s s' : Console} {e : ConsoleEvent} {es : List ConsoleEvent} (h : NeverFull s (e :: es))
    (hstep : s.step e = some s') : NeverFull s' es := by
  intro es₁ sc es₂ s'' heq hrun
  refine h (e :: es₁) sc es₂ s'' (by rw [heq]; rfl) ?_
  rw [List.foldlM_cons, hstep]
  exact hrun

/-- What has been typed and polled is in the editor, the rest waits. -/
structure Typing (s : Console) (waiting : List UInt8) : Prop where
  queue : Pending s.driver.queue (waiting.map plain)
  editor : s.editor.Ok s.lines
  typeable : ∀ ch ∈ waiting, Typeable ch

theorem session_run (es : List ConsoleEvent) : ∀ {s : Console} {waiting cs : List UInt8}, Typing s waiting →
    emits s.driver (bytesOf es) = cs.map plain → (∀ ch ∈ cs, Typeable ch) → NeverFull s es →
    ∃ s' n, es.foldlM Console.step s = some s' ∧ Typing s' ((waiting ++ cs).drop n) ∧
      (s'.editor.line, s'.lines) = ((waiting ++ cs).take n).foldl typed (s.editor.line, s.lines) := by
  induction es with
  | nil =>
    intro s waiting cs h hemits _ _
    have hnil : cs = [] := List.map_eq_nil_iff.mp hemits.symm
    rw [hnil, List.append_nil]
    exact ⟨s, 0, rfl, h, rfl⟩
  | cons e es ih =>
    intro s waiting cs h hemits hcs hroom
    cases e with
    | byte sc =>
      have hstep : s.step (.byte sc) = some { s with driver := s.driver.keyboardHandler sc } := rfl
      have hqueue := queue_keyboardHandler s.driver sc
      have hfree := hroom [] sc es s rfl rfl
      rw [bytesOf, emits] at hemits
      rw [List.foldlM_cons, hstep]
      cases hpushed : pushed s.driver sc with
      | none =>
        rw [hpushed] at hqueue hemits
        have hpend : Pending (s.driver.keyboardHandler sc).queue (waiting.map plain) := by
          rw [hqueue]
          exact h.queue
        exact ih ⟨hpend, h.editor, h.typeable⟩ hemits hcs (hroom.tail hstep)
      | some ev =>
        rw [hpushed] at hqueue hemits
        cases cs with
        | nil => cases hemits
        | cons ch cs =>
          obtain ⟨hev, hlater⟩ := List.cons.inj hemits
          subst hev
          have hpend : Pending (s.driver.keyboardHandler sc).queue ((waiting ++ [ch]).map plain) := by
            rw [hqueue, List.map_append]
            refine h.queue.push ?_ (plain ch)
            rw [← h.queue.contents]
            exact hfree
          have hmore : ∀ x ∈ waiting ++ [ch], Typeable x := by
            intro x hx
            rcases List.mem_append.mp hx with hx | hx
            · exact h.typeable x hx
            · rw [List.mem_singleton.mp hx]
              exact hcs ch List.mem_cons_self
          have htyping : Typing { s with driver := s.driver.keyboardHandler sc } (waiting ++ [ch]) :=
            ⟨hpend, h.editor, hmore⟩
          have hrest := ih htyping hlater (fun x hx => hcs x (List.mem_cons_of_mem _ hx)) (hroom.tail hstep)
          rw [List.append_assoc] at hrest
          exact hrest
    | round left path =>
      obtain ⟨hpolled, hqueue⟩ := h.queue.poll
      rw [bytesOf, ← emits_queue _ s.driver s.driver.queue.kbdPollEvent.1] at hemits
      cases waiting with
      | nil =>
        have hstep : s.step (.round left path) =
            some { s with driver := { s.driver with queue := s.driver.queue.kbdPollEvent.1 } } := by
          rw [Console.step]
          simp only [hpolled]
          rfl
        rw [List.foldlM_cons, hstep]
        have htyping : Typing { s with driver := { s.driver with queue := s.driver.queue.kbdPollEvent.1 } } [] :=
          ⟨hqueue, h.editor, h.typeable⟩
        exact ih htyping hemits hcs (hroom.tail hstep)
      | cons ch waiting =>
        obtain ⟨e', lines', hround, hok, hline⟩ :=
          editRound_plain h.editor (h.typeable ch List.mem_cons_self) left path
        have hstep : s.step (.round left path) =
            some ⟨{ s.driver with queue := s.driver.queue.kbdPollEvent.1 }, e', lines'⟩ := by
          rw [Console.step]
          simp only [hpolled, List.map_cons, List.head?_cons, hround]
          rfl
        rw [List.foldlM_cons, hstep]
        have hnext : Typing ⟨{ s.driver with queue := s.driver.queue.kbdPollEvent.1 }, e', lines'⟩ waiting :=
          ⟨hqueue, hok, fun x hx => h.typeable x (List.mem_cons_of_mem _ hx)⟩
        obtain ⟨s', n, hrun, htyping, heq⟩ := ih hnext hemits hcs (hroom.tail hstep)
        refine ⟨s', n + 1, hrun, htyping, ?_⟩
        rw [heq, hline]
        rfl

/-- Whatever is typed, and whenever the shell polls: if the queue is never full, then the shell has got the
    characters in their order, up to those that wait in the queue, and its line and the lines before it are
    what these characters make of them. -/
theorem typing_reaches_shell {cs : List UInt8} (hcs : ∀ ch ∈ cs, Typeable ch) (es : List ConsoleEvent)
    (hes : bytesOf es = cs.flatMap stroke) (buf : LineBuf) {q : Queue} (hq : Pending q [])
    (hroom : NeverFull ⟨resting q, .start buf, []⟩ es) :
    ∃ s n, es.foldlM Console.step ⟨resting q, .start buf, []⟩ = some s ∧
      s.driver.queue.contents = (cs.drop n).map plain ∧
      (s.editor.line, s.lines) = (cs.take n).foldl typed ([], []) := by
  have hstart : Typing ⟨resting q, .start buf, []⟩ [] :=
    ⟨hq, .start buf, fun ch hch => absurd hch List.not_mem_nil⟩
  have hemits : emits (resting q) (bytesOf es) = cs.map plain := by
    rw [hes]
    exact emits_strokes hcs q
  obtain ⟨s, n, hrun, htyping, hline⟩ := session_run es hstart hemits hcs hroom
  exact ⟨s, n, hrun, htyping.queue.contents, hline⟩

/-- A short text does not fill the queue. -/
theorem neverFull_of_short (es : List ConsoleEvent) : ∀ {s : Console} {evs : List KeyEvent},
    Pending s.driver.queue evs → evs.length + (bytesOf es).length ≤ capacity → NeverFull s es := by
  induction es with
  | nil =>
    rintro s evs - - es₁ sc es₂ s' heq -
    cases es₁ <;> cases heq
  | cons e es ih =>
    intro s evs hq hshort es₁ sc es₂ s' heq hrun
    cases es₁ with
    | nil =>
      cases heq
      cases hrun
      rw [hq.contents]
      rw [bytesOf, List.length_cons] at hshort
      omega
    | cons e₁ es₁ =>
      rw [List.cons_append, List.cons.injEq] at heq
      obtain ⟨rfl, heq⟩ := heq
      rw [List.foldlM_cons] at hrun
      obtain ⟨s₁, hstep, hrun⟩ := Option.bind_eq_some_iff.mp hrun
      have hnext : ∃ evs', Pending s₁.driver.queue evs' ∧ evs'.length + (bytesOf es).length ≤ capacity := by
        cases e with
        | byte b =>
          cases hstep
          rw [bytesOf, List.length_cons] at hshort
          rw [queue_keyboardHandler]
          cases pushed s.driver b with
          | none => exact ⟨evs, hq, by omega⟩
          | some ev =>
            refine ⟨evs ++ [ev], hq.push (by omega) ev, ?_⟩
            rw [List.length_append, List.length_singleton]
            omega
        | round left path =>
          have hqueue : s₁.driver.queue = s.driver.queue.kbdPollEvent.1 := by
            rw [Console.step] at hstep
            simp only at hstep
            split at hstep
            · cases hstep
              rfl
            · obtain ⟨r, -, rfl⟩ := Option.map_eq_some_iff.mp hstep
              rfl
          rw [bytesOf] at hshort
          refine ⟨evs.tail, hqueue ▸ hq.poll.2, ?_⟩
          rw [List.length_tail]
          omega
      obtain ⟨evs', hq', hshort'⟩ := hnext
      exact ih hq' hshort' es₁ sc es₂ s' heq hrun

theorem length_blank : (List.replicate lineMax (0 : UInt8)).length = lineMax := List.length_replicate

def blankBuf : LineBuf := ⟨_, length_blank⟩

/-- `hi`, the enter key, and the shell. -/
def sampleTyping : List ConsoleEvent :=
  ([104, 105, 10].flatMap stroke).map .byte ++ List.replicate 3 (.round blankBuf [])

theorem typing_reaches_shell_hi :
    ∃ s n, sampleTyping.foldlM Console.step ⟨resting emptyQueue, .start blankBuf, []⟩ = some s ∧
      s.driver.queue.contents = ([104, 105, 10].drop n).map plain ∧
      (s.editor.line, s.lines) = ([104, 105, 10].take n).foldl typed ([], []) := by
  have hempty : Pending emptyQueue [] := ⟨rfl, by decide, by decide⟩
  have hcs : ∀ ch ∈ [104, 105, 10], Typeable ch := by
    simp only [List.mem_cons, List.not_mem_nil, or_false]
    rintro ch (rfl | rfl | rfl) <;> decide
  exact typing_reaches_shell hcs sampleTyping (by decide) blankBuf hempty
    (neverFull_of_short sampleTyping hempty (by decide))

end ChocoOs.Shell
