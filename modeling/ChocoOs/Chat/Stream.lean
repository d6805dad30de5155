import ChocoOs.Chat.Texts
import Mathlib.Data.List.Induction

/-!
# A streamed message

A model answers in pieces. `bot_emit` puts each of them behind the text of the message of its job, or
leaves it out if it does not fit, also where a later one still does.
-/

namespace ChocoOs.Chat
open ProgLib

/-! ## The text behind a number of calls -/

/-- `bot_emit` on strings (`chat.c:399-409`). -/
def accept (text piece : List UInt8) : List UInt8 :=
  if text.length + (str piece).length < msgTextMax - 1 then text ++ str piece else text

/-- The text of a message that begins empty. -/
def streamed (pieces : List (List UInt8)) : List UInt8 := pieces.foldl accept []

theorem streamed_concat (pieces : List (List UInt8)) (piece : List UInt8) :
    streamed (pieces ++ [piece]) = accept (streamed pieces) piece := by
  rw [streamed, List.foldl_append]
  rfl

/-- All that was passed. -/
def wholeText (pieces : List (List UInt8)) : List UInt8 := pieces.flatMap str

theorem wholeText_concat (pieces : List (List UInt8)) (piece : List UInt8) :
    wholeText (pieces ++ [piece]) = wholeText pieces ++ str piece := by
  rw [wholeText, List.flatMap_append, List.flatMap_singleton]
  rfl

/-- Where all fits, all is put into the text. -/
theorem streamed_eq_wholeText {pieces : List (List UInt8)}
    (h : (wholeText pieces).length < msgTextMax - 1) : streamed pieces = wholeText pieces := by
  induction pieces using List.reverseRecOn with
  | nil => rfl
  | append_singleton pieces piece ih =>
    rw [wholeText_concat, List.length_append] at h
    rw [streamed_concat, wholeText_concat, ih (by omega), accept, if_pos h]

/-- The piece that an event passes to `bot_emit` for worker `i`. -/
def ChatEvent.piece (i : Nat) : ChatEvent → Option (List UInt8)
  | .emit j piece => if j = i then some piece else none
  | _ => none

/-- The pieces that a run passes to `bot_emit` for worker `i`. -/
def passed (i : Nat) (es : List ChatEvent) : List (List UInt8) := es.filterMap (ChatEvent.piece i)

/-- How far the message of a worker is, with the last piece not yet put into it while `bot_emit`
    runs. -/
def Streams (string : List UInt8) (pieces : List (List UInt8)) : WorkerPc → Prop
  | .start | .loadChan | .generate _ | .emitDirty _ => string = streamed pieces
  | .emitLen _ piece => ∃ before, pieces = before ++ [piece] ∧ string = streamed before
  | .emitCopy _ piece len =>
    ∃ before, pieces = before ++ [piece] ∧ string = streamed before ∧ len = string.length
  | _ => True

/-- A message that was cleared for a bot and that no worker has yet. -/
def UiPc.target : UiPc → Option MsgPtr
  | .push _ c (.minutes m) | .push _ c (.count m) | .testRunning c m | .setRunning c m | .setChan c m
  | .setMsg c m | .setPrompt c m | .setTyping c m | .setDirty c m | .resetSent c m | .create c m =>
    some (c, m)
  | _ => none

structure StreamInv (s : ChatState) (pieces : Nat → List (List UInt8)) : Prop where
  texts : ∀ p, TextOk (s.message p).text
  cleared : ∀ p, s.ui.target = some p → str (s.message p).text = []
  workers : ∀ i w, s.workers[i]? = some w → Streams (str (s.message w.mine).text) (pieces i) w.pc
  fresh : ∀ i, s.workers.length ≤ i → pieces i = []

section worker

variable {s t : ChatState} {w : Worker} {pc : WorkerPc} {pieces : List (List UInt8)}

/-- What the copy of a piece leaves in the buffer. -/
theorem str_append {text : List UInt8} (piece junk : List UInt8) :
    str (text.take (strlen text) ++ piece.take (strlen piece) ++ 0 :: junk) = str text ++ str piece := by
  have hnul : 0 ∉ str text ++ str piece := fun h =>
    (List.mem_append.mp h).elim (zero_not_mem_str text) (zero_not_mem_str piece)
  rw [take_strlen, take_strlen, str_terminated hnul]

theorem workerStep_streams (hw : WorkerOk s w) (h : s.workerStep w.pc = some (t, pc))
    (hst : Streams (str (s.message w.mine).text) pieces w.pc) :
    Streams (str (t.message w.mine).text) pieces pc := by
  obtain ⟨wpc, p⟩ := w
  cases wpc with
  | start => cases h; exact hst
  | loadChan =>
    rw [ChatState.workerStep, hw.chan trivial] at h
    cases h
    exact hst
  | generate c => cases h
  | emitLen c piece =>
    rw [ChatState.workerStep, hw.msg trivial] at h
    cases h
    obtain ⟨before, hpieces, hstring⟩ := hst
    exact ⟨before, hpieces, hstring, rfl⟩
  | emitCopy c piece len =>
    obtain ⟨before, hpieces, hstring, hlen⟩ := hst
    rw [ChatState.workerStep, hw.msg trivial] at h
    simp only at h
    split at h
    · next hfits =>
      cases h
      show str ((s.modifyMsg p _).message p).text = streamed pieces
      rw [message_modifyMsg_self, hlen, length_str, str_append, hpieces, streamed_concat, accept,
        ← hstring, length_str, if_pos (by rw [hlen, length_str] at hfits; exact hfits)]
    · next hfull =>
      cases h
      show str (s.message p).text = streamed pieces
      rw [hpieces, streamed_concat, accept, ← hstring,
        if_neg (by rw [hlen] at hfull; exact hfull)]
  | emitDirty c =>
    rw [ChatState.workerStep, hw.chan trivial] at h
    cases h
    show str ((s.setDirty p.1 true).message p).text = streamed pieces
    rw [message_setDirty]
    exact hst
  | failText c text =>
    rw [ChatState.workerStep, hw.msg trivial] at h
    cases h
    trivial
  | testEmpty c =>
    rw [ChatState.workerStep, hw.msg trivial] at h
    cases h
    split <;> trivial
  | emptyText c =>
    rw [ChatState.workerStep, hw.msg trivial] at h
    cases h
    trivial
  | clearTyping c => cases h; trivial
  | setDirty c => cases h; trivial
  | clearRunning => cases h; trivial
  | done => cases h

/-- A worker that has written `typing` changes no message any more. -/
theorem workerStep_message {pc' : WorkerPc} (h : s.workerStep pc = some (t, pc'))
    (hpc : ¬ pc.Writing) (q : MsgPtr) : t.message q = s.message q := by
  cases pc with
  | setDirty c => cases h; exact message_setDirty ..
  | clearRunning => cases h; rfl
  | done => cases h
  | _ => exact absurd trivial hpc

end worker

section ui

variable {s t : ChatState}

theorem message_modifyMsg_ui (s : ChatState) (p : MsgPtr) (f : Message → Message) (pc : UiPc) :
    ({ s.modifyMsg p f with ui := pc } : ChatState).message p = f (s.message p) :=
  message_modifyMsg_self s p f

theorem pushStep_cleared {ticks : Nat} {k : Purpose} {c : Fin numChannels} {pc : PushPc}
    (h : s.pushStep ticks k c pc = some t)
    (hs : ∀ p, (UiPc.push k c pc).target = some p → str (s.message p).text = []) :
    ∀ p, t.ui.target = some p → str (t.message p).text = [] := by
  intro p hp
  cases pc with
  | slot => cases h; cases hp
  | author m => cases h; cases hp
  | color m => cases h; cases hp
  | clear m =>
    cases h
    cases hp
    rw [message_modifyMsg_ui]
    rfl
  | minutes m =>
    cases h
    cases hp
    rw [message_modifyMsg_ui]
    exact hs (c, m) rfl
  | count m =>
    rw [ChatState.pushStep] at h
    split at h
    · cases h
    · cases h
      cases k with
      | bot =>
        cases hp
        show str ((s.countUp c).message (c, m)).text = []
        rw [message_countUp]
        exact hs (c, m) rfl
      | _ => cases hp

/-- The message stays empty until its worker is created. -/
theorem uiStep_cleared {ticks : Nat} (h : s.uiStep ticks = some t)
    (hs : ∀ p, s.ui.target = some p → str (s.message p).text = []) :
    ∀ p, t.ui.target = some p → str (t.message p).text = [] := by
  intro p hp
  unfold ChatState.uiStep at h
  cases hpc : s.ui with
  | push k c pc =>
    rw [hpc] at h hs
    exact pushStep_cleared h hs p hp
  | testRunning c m =>
    rw [hpc] at h hs
    cases h
    replace hp : (if s.botRunning = true then UiPc.busyText c m else .setRunning c m).target =
      some p := hp
    split at hp
    · cases hp
    · cases hp
      exact hs (c, m) rfl
  | setRunning c m => rw [hpc] at h hs; cases h; cases hp; exact hs (c, m) rfl
  | setChan c m => rw [hpc] at h hs; cases h; cases hp; exact hs (c, m) rfl
  | setMsg c m => rw [hpc] at h hs; cases h; cases hp; exact hs (c, m) rfl
  | setPrompt c m => rw [hpc] at h hs; cases h; cases hp; exact hs (c, m) rfl
  | setTyping c m =>
    rw [hpc] at h hs
    cases h
    cases hp
    show str ((s.setTyping c true).message (c, m)).text = []
    rw [message_setTyping]
    exact hs (c, m) rfl
  | setDirty c m =>
    rw [hpc] at h hs
    cases h
    cases hp
    show str ((s.setDirty c true).message (c, m)).text = []
    rw [message_setDirty]
    exact hs (c, m) rfl
  | resetSent c m => rw [hpc] at h hs; cases h; cases hp; exact hs (c, m) rfl
  | testGreet =>
    rw [hpc] at h
    cases h
    replace hp : (if (s.channels 0).msgCount = 0 then UiPc.push .greet 0 .slot else .loop).target =
      some p := hp
    split at hp <;> cases hp
  | testTyping c =>
    rw [hpc] at h
    cases h
    replace hp : (if s.input = [] ∨ (s.channels c).typing = true then UiPc.loop
      else .push .user c .slot).target = some p := hp
    split at hp <;> cases hp
  | outside => rw [hpc] at h; cases h
  | loop => rw [hpc] at h; cases h
  | _ => rw [hpc] at h; cases h; cases hp

/-- A cleared message belongs to no worker that still writes. -/
theorem ChatInv.target_free (hs : ChatInv s) {p : MsgPtr} (hp : s.ui.target = some p) {w : Worker}
    (hw : w ∈ s.workers) (hpc : w.pc.Writing) : p ≠ w.mine := by
  obtain ⟨wpc, q⟩ := w
  rintro rfl
  have hok := hs.workers _ hw
  have hui := hs.ui
  have hnl : ¬ s.ui.Launch := fun hl => by
    rw [hs.idle_of_launch hl _ hw] at hpc
    exact hpc
  have hquiet : (s.channels p.1).typing ≠ false := by
    rw [hok.typing hpc]
    exact nofun
  cases hstate : s.ui with
  | push k c pc =>
    rw [hstate] at hp hui
    have hc : c = p.1 := by
      cases pc with
      | minutes m => cases hp; rfl
      | count m => cases hp; rfl
      | _ => cases hp
    exact hquiet (hc ▸ hui.1)
  | testRunning c m => rw [hstate] at hp hui; cases hp; exact hquiet hui.1
  | _ =>
    rw [hstate] at hp hnl
    first
    | exact absurd trivial hnl
    | cases hp

end ui

/-! ## Every run -/

section step

variable {s t : ChatState} {pieces : Nat → List (List UInt8)}

theorem streams_of_done {string : List UInt8} {l : List (List UInt8)} {pc : WorkerPc}
    (h : ¬ pc.Writing) : Streams string l pc := by
  cases pc with
  | setDirty c => trivial
  | clearRunning => trivial
  | done => trivial
  | _ => exact absurd trivial h

/-- The thread of `chat_run` does not touch the message of a worker. -/
theorem StreamInv.aside (hst : StreamInv s pieces) (hs : ChatInv s) {e : ChatEvent} (he : e.IsUi)
    (h : s.step e = some t) {i : Nat} {w : Worker} (hi : s.workers[i]? = some w) :
    Streams (str (t.message w.mine).text) (pieces i) w.pc := by
  by_cases hpc : w.pc.Writing
  · rw [(hs.ui_aside (List.mem_of_getElem? hi) hpc he h).2]
    exact hst.workers i w hi
  · exact streams_of_done hpc

/-- A statement of `chat_run`. -/
theorem StreamInv.uiStep (hst : StreamInv s pieces) (hs : ChatInv s) {ticks : Nat}
    (h : s.uiStep ticks = some t) : StreamInv t pieces where
  texts := fun p => (hst.texts p).written (uiStep_written h p)
  cleared := uiStep_cleared h hst.cleared
  workers := by
    have haside : ∀ {i w}, s.workers[i]? = some w →
        Streams (str (t.message w.mine).text) (pieces i) w.pc :=
      hst.aside hs (e := .ui ticks) trivial h
    intro i w hi
    rcases uiStep_workers h with hkeep | ⟨c, m, hpc, rfl⟩
    · rw [hkeep] at hi
      exact haside hi
    · rcases getElem?_snoc hi with hold | ⟨rfl, rfl⟩
      · exact haside hold
      · rw [hst.fresh _ (Nat.le_refl _)]
        exact hst.cleared (c, m) (by rw [hpc]; rfl)
  fresh := by
    intro i hi
    apply hst.fresh i
    rcases uiStep_workers h with hkeep | ⟨c, m, -, rfl⟩
    · rw [← hkeep]
      exact hi
    · exact Nat.le_trans (List.length_append ▸ Nat.le_add_right ..) hi

/-- A key, the start of `chat_run` or a redraw. -/
theorem StreamInv.other (hst : StreamInv s pieces) {e : ChatEvent} (h : s.step e = some t)
    (he : match e with | .run | .key _ | .redraw => True | _ => False) : StreamInv t pieces := by
  obtain ⟨hk, -, -⟩ := step_other h he
  have hmsg : ∀ q, t.message q = s.message q := fun q => hk.msg q nofun
  have htarget : t.ui.target = none := by
    cases e with
    | run =>
      rw [ChatState.step] at h
      split at h <;> cases h
      rfl
    | key k =>
      rw [ChatState.step] at h
      split at h
      · next hui =>
        cases h
        have hloop : s.ui.target = none := by
          rw [hui]
          rfl
        cases k with
        | char b =>
          rw [ChatState.keyStep]
          split <;> exact hloop
        | escape => rfl
        | enter => rfl
        | tab => exact hloop
        | backspace => exact hloop
      · cases h
    | redraw =>
      rw [ChatState.step] at h
      split at h
      · next hui =>
        cases h
        show s.ui.target = none
        rw [hui]
        rfl
      · cases h
    | _ => exact he.elim
  refine ⟨fun p => ?_, fun p hp => ?_, fun i w hi => ?_, fun i hi => ?_⟩
  · rw [hmsg]
    exact hst.texts p
  · rw [htarget] at hp
    cases hp
  · rw [hmsg]
    rw [hk.workers] at hi
    exact hst.workers i w hi
  · rw [hk.workers] at hi
    exact hst.fresh i hi

/-- Worker `j` goes on; another worker that is not done writes no more. -/
theorem StreamInv.putWorker (hst : StreamInv s pieces) (hs : ChatInv s) {j : Nat} {w : Worker}
    (hj : s.workers[j]? = some w) (hne : w.pc ≠ .done) (u : ChatState) (pc : WorkerPc)
    (more : List (List UInt8)) (hui : u.ui = s.ui) (hworkers : u.workers = s.workers)
    (htexts : ∀ p, TextOk (u.message p).text)
    (hother : ∀ q, ¬ w.pc.Writing ∨ q ≠ w.mine → u.message q = s.message q)
    (hown : Streams (str (u.message w.mine).text) (pieces j ++ more) pc) :
    StreamInv (u.putWorker j w pc) (fun i => pieces i ++ if i = j then more else []) where
  texts := htexts
  cleared := by
    intro p hp
    have hp : s.ui.target = some p := by
      rw [← hui]
      exact hp
    have hsame : u.message p = s.message p := by
      apply hother
      by_cases hpc : w.pc.Writing
      · exact .inr (hs.target_free hp (List.mem_of_getElem? hj) hpc)
      · exact .inl hpc
    show str (u.message p).text = []
    rw [hsame]
    exact hst.cleared p hp
  workers := by
    intro i v hv
    replace hv : (u.workers.set j { w with pc := pc })[i]? = some v := hv
    rw [hworkers, List.getElem?_set] at hv
    split at hv
    · next hji =>
      split at hv
      · cases hv
        rw [if_pos hji.symm, ← hji]
        exact hown
      · cases hv
    · next hji =>
      apply streams_of_done
      intro hwriting
      refine hji (hs.single j i w v hj hv hne fun hdone => ?_)
      rw [hdone] at hwriting
      exact hwriting
  fresh := by
    intro i hi
    replace hi : (u.workers.set j { w with pc := pc }).length ≤ i := hi
    rw [List.length_set, hworkers] at hi
    have hlt := (List.getElem?_eq_some_iff.mp hj).1
    rw [hst.fresh i hi, if_neg (by omega)]
    rfl

theorem StreamInv.step (hst : StreamInv s pieces) (hs : ChatInv s) {e : ChatEvent}
    (h : s.step e = some t) : StreamInv t fun i => pieces i ++ (e.piece i).toList := by
  have hnone : ∀ l : Nat → List (List UInt8), (fun i => l i ++ (none : Option (List UInt8)).toList) = l :=
    fun l => funext fun i => List.append_nil (l i)
  cases e with
  | ui ticks => exact (hnone pieces).symm ▸ hst.uiStep hs h
  | worker j =>
    rw [ChatState.step] at h
    simp only [Option.bind_eq_bind, Option.bind_eq_some_iff, Option.pure_def, Option.some.injEq] at h
    obtain ⟨w, hj, ⟨u, pc⟩, hstep, rfl⟩ := h
    have hw := hs.workers w (List.mem_of_getElem? hj)
    have hne : w.pc ≠ .done := fun hdone => by
      rw [hdone] at hstep
      cases hstep
    obtain ⟨hm, -⟩ := workerStep_moves hw hstep
    have hput := hst.putWorker hs hj hne u pc [] hm.ui hm.workers
      (fun p => (hst.texts p).written (workerStep_written hstep p)) ?_ ?_
    · simpa [ChatEvent.piece] using hput
    · intro q hq
      rcases hq with hpc | hq
      · exact workerStep_message hstep hpc q
      · exact hm.msg q hq
    · rw [List.append_nil]
      exact workerStep_streams hw hstep (hst.workers j w hj)
  | emit j piece =>
    rw [ChatState.step] at h
    simp only [Option.bind_eq_bind, Option.bind_eq_some_iff] at h
    obtain ⟨w, hj, hw⟩ := h
    split at hw
    · next c hpc =>
      cases hw
      have hprev := hst.workers j w hj
      rw [hpc] at hprev
      have hput := hst.putWorker hs hj (by simp [hpc]) s (.emitLen c piece) [piece] rfl rfl
        hst.texts (fun _ _ => rfl) ⟨pieces j, rfl, hprev⟩
      have hpiece : (fun i => pieces i ++ ((ChatEvent.emit j piece).piece i).toList) =
          fun i => pieces i ++ if i = j then [piece] else [] := by
        funext i
        rw [ChatEvent.piece]
        by_cases hij : i = j
        · rw [if_pos hij, if_pos hij.symm]
          rfl
        · rw [if_neg hij, if_neg (Ne.symm hij)]
          rfl
      rw [hpiece]
      exact hput
    · cases hw
  | finish j n =>
    rw [ChatState.step] at h
    simp only [Option.bind_eq_bind, Option.bind_eq_some_iff] at h
    obtain ⟨w, hj, hw⟩ := h
    split at hw
    · next c hpc =>
      cases hw
      have htrue : Streams (str (s.message w.mine).text) (pieces j ++ []) (afterGenerate c n) := by
        unfold afterGenerate
        split <;> trivial
      have hput := hst.putWorker hs hj (by simp [hpc]) s (afterGenerate c n) [] rfl rfl
        hst.texts (fun _ _ => rfl) htrue
      simpa [ChatEvent.piece] using hput
    · cases hw
  | run => exact (hnone pieces).symm ▸ hst.other h trivial
  | key k => exact (hnone pieces).symm ▸ hst.other h trivial
  | redraw => exact (hnone pieces).symm ▸ hst.other h trivial

theorem streamInv_loaded (h : s.Loaded) : StreamInv s fun _ => [] := by
  obtain ⟨⟨-, -, -, -, -, -, hui, hworkers⟩, htexts⟩ := h
  refine ⟨fun p => ?_, fun p hp => ?_, fun i w hi => ?_, fun _ _ => rfl⟩
  · rw [htexts p]
    exact ⟨List.length_replicate, List.mem_replicate.mpr ⟨by decide, rfl⟩⟩
  · rw [hui] at hp
    cases hp
  · rw [hworkers] at hi
    cases hi

/-- The invariant holds behind every run. -/
theorem streamInv_after {es : List ChatEvent} (h : s.Loaded) (hrun : s.after es = some t) :
    StreamInv t fun i => passed i es := by
  induction es using List.reverseRecOn generalizing t with
  | nil =>
    cases hrun
    exact streamInv_loaded h
  | append_singleton es e ih =>
    rw [ChatState.after, List.foldlM_append, Option.bind_eq_bind, Option.bind_eq_some_iff] at hrun
    obtain ⟨u, hbefore, hlast⟩ := hrun
    have hstep : u.step e = some t := by
      rw [List.foldlM_cons, Option.bind_eq_bind, Option.bind_eq_some_iff] at hlast
      obtain ⟨v, hv, hend⟩ := hlast
      cases hend
      exact hv
    have hinv : ChatInv u := chatInv_reachable (reachable_after (.init h.1) hbefore)
    have hpassed : (fun i => passed i (es ++ [e])) = fun i => passed i es ++ (e.piece i).toList :=
      funext fun i => List.filterMap_append ..
    rw [hpassed]
    exact (ih hbefore).step hinv hstep

end step

/-! ## Every sequence of pieces -/

/-- Worker `i` waits for a piece for its message `p`. -/
structure Emitting (s : ChatState) (i : Nat) (p : MsgPtr) : Prop where
  worker : s.workers[i]? = some ⟨.generate p.1, p⟩
  chan : s.job.chan = some p.1
  msg : s.job.msg = some p

/-- What the pieces of one message leave as it is. -/
structure Beside (s t : ChatState) (p : MsgPtr) : Prop where
  ui : t.ui = s.ui
  msg : ∀ q, q ≠ p → t.message q = s.message q
  count : ∀ c, (t.channels c).msgCount = (s.channels c).msgCount

section emits

variable {s : ChatState} {i : Nat} {p : MsgPtr}

theorem step_emit {c : Fin numChannels} (h : s.workers[i]? = some ⟨.generate c, p⟩)
    (piece : List UInt8) : s.step (.emit i piece) = some (s.putWorker i ⟨.generate c, p⟩ (.emitLen c piece)) := by
  rw [ChatState.step, h]
  rfl

theorem step_workerStep {u : ChatState} {w : Worker} {pc : WorkerPc} (h : s.workers[i]? = some w)
    (hstep : s.workerStep w.pc = some (u, pc)) : s.step (.worker i) = some (u.putWorker i w pc) := by
  rw [ChatState.step, h, Option.bind_eq_bind, Option.bind_some, hstep]
  rfl

theorem beside_modifyMsg (s : ChatState) (p : MsgPtr) (f : Message → Message) :
    Beside s (s.modifyMsg p f) p :=
  ⟨rfl, fun q hq => message_modifyMsg s p q f hq, fun _ => msgCount_modifyMsg ..⟩

theorem beside_setDirty (s : ChatState) (p : MsgPtr) (c : Fin numChannels) (b : Bool) :
    Beside s (s.setDirty c b) p :=
  ⟨rfl, fun _ _ => message_setDirty .., fun _ => msgCount_setDirty ..⟩

theorem Beside.trans {t u : ChatState} (h : Beside s t p) (h' : Beside t u p) : Beside s u p where
  ui := h'.ui.trans h.ui
  msg := fun q hq => (h'.msg q hq).trans (h.msg q hq)
  count := fun c => (h'.count c).trans (h.count c)

theorem beside_putWorker (s : ChatState) (i : Nat) (w : Worker) (pc : WorkerPc) (p : MsgPtr) :
    Beside s (s.putWorker i w pc) p :=
  ⟨rfl, fun _ _ => rfl, fun _ => rfl⟩

/-- A model may emit any piece. -/
theorem emit_piece (h : Emitting s i p) (piece : List UInt8) :
    ∃ t es, s.after es = some t ∧ passed i es = [piece] ∧ Emitting t i p ∧ Beside s t p := by
  obtain ⟨hworker, hchan, hmsg⟩ := h
  have hpassed : ∀ n : Nat, passed i (.emit i piece :: List.replicate n (.worker i)) = [piece] := by
    intro n
    have hrest : (List.replicate n (ChatEvent.worker i)).filterMap (ChatEvent.piece i) = [] := by
      rw [List.filterMap_replicate_of_none]
      rfl
    have hown : (ChatEvent.emit i piece).piece i = some piece := if_pos rfl
    rw [passed, List.filterMap_cons_some hown, hrest]
  -- `strlen` of the text
  let s1 := s.putWorker i ⟨.generate p.1, p⟩ (.emitLen p.1 piece)
  have h1 : s1.workers[i]? = some ⟨.emitLen p.1 piece, p⟩ := workers_putWorker s _ hworker
  let s2 := s1.putWorker i ⟨.emitLen p.1 piece, p⟩ (.emitCopy p.1 piece (strlen (s.message p).text))
  have h2 : s2.workers[i]? = some ⟨.emitCopy p.1 piece (strlen (s.message p).text), p⟩ :=
    workers_putWorker s1 _ h1
  have hstep2 : s1.step (.worker i) = some s2 := by
    apply step_workerStep h1
    rw [ChatState.workerStep, show s1.job.msg = some p from hmsg]
    rfl
  by_cases hfits : strlen (s.message p).text + strlen piece < msgTextMax - 1
  · let s3 := (s2.modifyMsg p fun m => { m with
      text := m.text.take (strlen (s.message p).text) ++ piece.take (strlen piece) ++
        0 :: m.text.drop (strlen (s.message p).text + strlen piece + 1) }).putWorker i
      ⟨.emitCopy p.1 piece (strlen (s.message p).text), p⟩ (.emitDirty p.1)
    have h3 : s3.workers[i]? = some ⟨.emitDirty p.1, p⟩ := workers_putWorker _ _ h2
    have hstep3 : s2.step (.worker i) = some s3 := by
      apply step_workerStep h2
      rw [ChatState.workerStep, show s2.job.msg = some p from hmsg]
      exact if_pos hfits
    let t := (s3.setDirty p.1 true).putWorker i ⟨.emitDirty p.1, p⟩ (.generate p.1)
    have hstep4 : s3.step (.worker i) = some t := by
      apply step_workerStep h3
      rw [ChatState.workerStep, show s3.job.chan = some p.1 from hchan]
      rfl
    refine ⟨t, .emit i piece :: List.replicate 3 (.worker i), ?_, hpassed 3, ?_, ?_⟩
    · rw [after_cons (step_emit hworker piece), List.replicate_succ, after_cons hstep2,
        List.replicate_succ, after_cons hstep3, List.replicate_succ, after_cons hstep4]
      rfl
    · exact ⟨workers_putWorker _ _ h3, hchan, hmsg⟩
    · have hcopied : Beside s2 s3 p := (beside_modifyMsg s2 p _).trans (beside_putWorker ..)
      have hdirty : Beside s3 t p := (beside_setDirty s3 p p.1 true).trans (beside_putWorker ..)
      exact (((beside_putWorker ..).trans (beside_putWorker ..)).trans hcopied).trans hdirty
  · let t := s2.putWorker i ⟨.emitCopy p.1 piece (strlen (s.message p).text), p⟩ (.generate p.1)
    have hstep3 : s2.step (.worker i) = some t := by
      apply step_workerStep h2
      exact if_neg hfits
    refine ⟨t, .emit i piece :: List.replicate 2 (.worker i), ?_, hpassed 2, ?_, ?_⟩
    · rw [after_cons (step_emit hworker piece), List.replicate_succ, after_cons hstep2,
        List.replicate_succ, after_cons hstep3]
      rfl
    · exact ⟨workers_putWorker _ _ h2, hchan, hmsg⟩
    · exact ((beside_putWorker ..).trans (beside_putWorker ..)).trans (beside_putWorker ..)

/-- A model may emit any pieces, one behind the other. -/
theorem emit_pieces (h : Emitting s i p) (pieces : List (List UInt8)) :
    ∃ t es, s.after es = some t ∧ passed i es = pieces ∧ Emitting t i p ∧ Beside s t p := by
  induction pieces generalizing s with
  | nil => exact ⟨s, [], rfl, rfl, h, rfl, fun _ _ => rfl, fun _ => rfl⟩
  | cons piece pieces ih =>
    obtain ⟨u, es, hrun, hpassed, hu, hbeside⟩ := emit_piece h piece
    obtain ⟨t, es', hrun', hpassed', ht, hbeside'⟩ := ih hu
    refine ⟨t, es ++ es', (after_append hrun).trans hrun', ?_, ht, hbeside.trans hbeside'⟩
    rw [passed, List.filterMap_append]
    exact congrArg₂ _ hpassed hpassed'

end emits

/-- Four empty channels. -/
def loadedStart : ChatState where
  channels := fun _ => ⟨[], 0, fun _ => ⟨[], 0, List.replicate msgTextMax 0, 0⟩, 0, false, false⟩
  currentChan := 0
  input := []
  job := ⟨none, none, []⟩
  botRunning := false
  ui := .outside
  workers := []

theorem loadedStart_loaded : loadedStart.Loaded :=
  ⟨⟨fun _ => ⟨rfl, rfl⟩, rfl, rfl, rfl, rfl, rfl, rfl, rfl⟩, fun _ => rfl⟩

/-- In the second channel one letter is sent; its worker waits for the first piece. -/
def startEvents : List ChatEvent :=
  .run :: List.replicate 9 (.ui 0) ++ [.key .tab, .key (.char 97), .key .enter] ++
    List.replicate 23 (.ui 0) ++ [.worker 0, .worker 0]

theorem emitting_start : ∃ s, loadedStart.after startEvents = some s ∧ Emitting s 0 (1, 1) := by
  have hrun : (loadedStart.after startEvents).map (fun s => (s.workers, s.job.chan, s.job.msg)) =
      some ([⟨.generate 1, (1, 1)⟩], some 1, some (1, 1)) := rfl
  obtain ⟨s, hs, hstate⟩ := Option.map_eq_some_iff.mp hrun
  obtain ⟨hworkers, hjob⟩ := Prod.mk.inj hstate
  obtain ⟨hchan, hmsg⟩ := Prod.mk.inj hjob
  refine ⟨s, hs, ?_, hchan, hmsg⟩
  rw [hworkers]
  rfl

end ChocoOs.Chat
