import ChocoOs.Chat.Draw
import ChocoOs.Chat.Integrity

/-!
# No redraw is lost

A worker writes and then sets `dirty`; `chat_run` clears `dirty` and then draws. The system here is
that of the chat, with the loop of `chat_run` and all that it draws: every access of `draw_chat` to a
message, and every byte that a worker has copied, is a step. Wherever the picture is out of date,
somebody will still draw it.
-/

namespace ChocoOs.Chat
open ProgLib

/-! ## The system -/

abbrev Texts := Fin msgsPerChannel → List UInt8

def Channel.texts (ch : Channel) : Texts := fun m => (ch.msgs m).text

/-- What `draw_chat` or `draw_input` is called for: `draw_all` when the chat is opened or the channel
    was switched, a message was sent, or the loop found `dirty` or `need_input_redraw` set. -/
inductive DrawFor where
  | opened
  | switched
  | sent
  | dirty
  deriving DecidableEq

/-- The next statement of `chat_run` (`chat.c:483-557`). `opening` and `sending` are the statements
    up to the loop and those of `send_message`. -/
inductive ScreenPc where
  | opening
  | sending
  | head
  | poll
  | testDirty
  | clearDirty
  | startChat (k : DrawFor)
  | chat (k : DrawFor) (f : Draw (List Row))
  | setNeed (k : DrawFor)
  | testNeed
  | input (k : DrawFor)

/-- The chat and its screen: the rows of the panel, and the typing indicator. `seen`, `cleared` and
    `unflagged` are history: the texts at each access of the last `draw_chat`, that `dirty` was
    cleared and `draw_input` has not followed yet, and that a worker has written since it last set
    `dirty`. -/
structure Screen where
  chat : ChatState
  pc : ScreenPc
  running : Bool
  needInputRedraw : Bool
  rows : List Row
  indicator : Bool
  seen : List Texts
  cleared : Bool
  unflagged : Bool

/-- `channels[current_chan]` -/
def Screen.channel (s : Screen) : Channel := s.chat.channels s.chat.currentChan

/-- A step of the thread of `chat_run`, also a key that it polls or the end of the keys; a step of
    worker `i`, which may also have copied `n` bytes of what it is copying. -/
inductive ScreenEvent where
  | run
  | key (k : Option Key)
  | ui (ticks : Nat)
  | worker (i : Nat)
  | copied (i n : Nat)
  | emit (i : Nat) (piece : List UInt8)
  | finish (i : Nat) (n : Int)

/-- `kbd_poll_event` and what is done with its key (`chat.c:507-541`). -/
def Screen.keyStep (s : Screen) : Option Key → Screen
  | none => { s with pc := .testDirty }
  | some .escape => { s with running := false, pc := .testDirty }
  | some .tab => { s with chat := s.chat.keyStep .tab, pc := .startChat .switched }
  | some .enter => { s with chat := s.chat.keyStep .enter, pc := .sending }
  | some k => { s with
      chat := s.chat.keyStep k
      needInputRedraw := s.needInputRedraw || decide ((s.chat.keyStep k).input ≠ s.chat.input) }

/-- Where the thread goes on behind a `draw_chat` (`chat.c:345-346`, `chat.c:525-526`,
    `chat.c:548-549`). -/
def DrawFor.next : DrawFor → ScreenPc
  | .opened => .input .opened
  | .switched => .input .switched
  | .sent => .setNeed .sent
  | .dirty => .setNeed .dirty

/-- The next statement of `chat_run`; `prog` is a call of `draw_chat`. -/
def Screen.uiStep (prog : Draw (List Row)) (s : Screen) (ticks : Nat) : Option Screen :=
  match s.pc with
  | .opening => do
    let t ← s.chat.uiStep ticks
    return { s with chat := t, pc := if t.ui = .loop then .startChat .opened else .opening }
  | .sending => do
    let t ← s.chat.uiStep ticks
    return { s with chat := t, pc := if t.ui = .loop then .startChat .sent else .sending }
  | .head =>
    if s.running then some { s with needInputRedraw := false, pc := .poll }
    else some { s with chat := { s.chat with ui := .outside }, pc := .opening }
  | .poll => none
  | .testDirty => some { s with pc := if s.channel.dirty = true then .clearDirty else .testNeed }
  | .clearDirty => some { s with
      chat := s.chat.setDirty s.chat.currentChan false
      pc := .startChat .dirty
      cleared := true }
  | .startChat k => some { s with pc := .chat k prog, seen := [s.channel.texts] }
  | .chat k (.read c f) => some { s with
      pc := .chat k (f (s.channel.cell c))
      seen := s.seen ++ [s.channel.texts] }
  | .chat k (.done rows) => some { s with rows := rows, pc := k.next }
  | .chat _ .stuck => none
  | .setNeed k => some { s with
      needInputRedraw := true
      pc := if k = .sent then .poll else .testNeed }
  | .testNeed => some { s with pc := if s.needInputRedraw then .input .dirty else .head }
  | .input k => some { s with
      indicator := s.channel.typing
      cleared := false
      pc := if k = .switched then .poll else .head }

/-! ## A worker -/

/-- The bytes that `strlcpy` copies. -/
def strlcpyBytes (src : List UInt8) (size : Nat) : List UInt8 :=
  src.take (if strlen src < size - 1 then strlen src else size - 1) ++ [0]

/-- The copy that a statement makes: where it goes, and its bytes. -/
def WorkerPc.copy : WorkerPc → Option (Nat × List UInt8)
  | .emitCopy _ piece len =>
    if len + strlen piece < msgTextMax - 1 then some (len, piece.take (strlen piece) ++ [0]) else none
  | .failText _ text => some (0, strlcpyBytes text msgTextMax)
  | .emptyText _ => some (0, strlcpyBytes (ascii "(the model had nothing to say)") msgTextMax)
  | _ => none

/-- The first `n` bytes of a copy are made. -/
def ChatState.copied (s : ChatState) (p : MsgPtr) (off : Nat) (bytes : List UInt8) (n : Nat) :
    ChatState :=
  s.modifyMsg p fun m => { m with text := m.text.take off ++ bytes.take n ++ m.text.drop (off + n) }

/-- The history of a worker: has it written since it last set `dirty`? -/
def WorkerPc.mark (pc : WorkerPc) (b : Bool) : Bool :=
  match pc with
  | .emitCopy _ _ _ | .failText _ _ | .emptyText _ => pc.copy.isSome || b
  | .clearTyping _ => true
  | .emitDirty _ | .setDirty _ => false
  | _ => b

/-- One step of the system. -/
def Screen.step (prog : Draw (List Row)) (s : Screen) : ScreenEvent → Option Screen
  | .run =>
    match s.pc with
    | .opening => do
      let t ← s.chat.step .run
      return { s with chat := t, running := true }
    | _ => none
  | .key k =>
    match s.pc with
    | .poll => some (s.keyStep k)
    | _ => none
  | .ui ticks => s.uiStep prog ticks
  | .worker i => do
    let w ← s.chat.workers[i]?
    let t ← s.chat.step (.worker i)
    return { s with chat := t, unflagged := w.pc.mark s.unflagged }
  | .copied i n => do
    let w ← s.chat.workers[i]?
    let (off, bytes) ← w.pc.copy
    let p ← s.chat.job.msg
    if n ≤ bytes.length then
      return { s with chat := s.chat.copied p off bytes n, unflagged := true }
    else none
  | .emit i piece => do
    let t ← s.chat.step (.emit i piece)
    return { s with chat := t }
  | .finish i n => do
    let t ← s.chat.step (.finish i n)
    return { s with chat := t }

/-- The chat was never opened, and there is no worker. -/
def Screen.Initial (s : Screen) : Prop :=
  s.chat.Initial ∧ s.pc = .opening ∧ s.cleared = false ∧ s.unflagged = false

/-- The states of every interleaving. -/
def ScreenReachable (prog : Draw (List Row)) : Screen → Prop :=
  Reach Screen.Initial fun s t => ∃ e, s.step prog e = some t

/-- The loop of `chat_run` on the current channel, without the handling of a key that sends a message
    or switches the channel. -/
def ScreenPc.Looping : ScreenPc → Prop
  | .head | .poll | .testDirty | .clearDirty | .startChat .dirty | .chat .dirty _ | .setNeed .dirty
  | .testNeed | .input .dirty => True
  | _ => False

/-- From the write of `dirty` to the end of the `draw_input` that follows. -/
def ScreenPc.Redrawing : ScreenPc → Prop
  | .startChat .dirty | .chat .dirty _ | .setNeed .dirty | .testNeed | .input .dirty => True
  | _ => False

/-- The screen shows the channel: all that `draw_chat` saw is still there, what it painted is what it
    would paint now, and the indicator is right. -/
structure Screen.Shows (prog : Draw (List Row)) (s : Screen) : Prop where
  texts : ∀ x ∈ s.seen, x = s.channel.texts
  rows : prog.finish s.channel.cell = some s.rows
  typing : s.indicator = s.channel.typing

/-- The copy that a statement of a worker makes is the copy of all its bytes. -/
theorem workerStep_copied {s t : ChatState} {pc pc' : WorkerPc} {off : Nat} {bytes : List UInt8}
    {p : MsgPtr} (hcopy : pc.copy = some (off, bytes)) (hp : s.job.msg = some p)
    (h : s.workerStep pc = some (t, pc')) : t = s.copied p off bytes bytes.length := by
  have hlen : ∀ (src : List UInt8) (n : Nat), n ≤ strlen src → (src.take n ++ [0]).length = n + 1 := by
    intro src n hn
    have hle : strlen src ≤ src.length := (List.takeWhile_prefix _).length_le
    rw [List.length_append, List.length_take, List.length_singleton, Nat.min_eq_left (by omega)]
  have htext : ∀ (text src : List UInt8) (n : Nat), n ≤ strlen src →
      text.take 0 ++ (src.take n ++ [0]).take (src.take n ++ [0]).length ++
        text.drop (0 + (src.take n ++ [0]).length) = src.take n ++ 0 :: text.drop (n + 1) := by
    intro text src n hn
    rw [List.take_length, hlen src n hn, List.take_zero, List.nil_append, Nat.zero_add,
      List.append_assoc, List.singleton_append]
  have hset : ∀ src : List UInt8, s.setText p src =
      s.copied p 0 (strlcpyBytes src msgTextMax) (strlcpyBytes src msgTextMax).length := by
    intro src
    rw [ChatState.setText, ChatState.copied]
    congr 1
    funext m
    rw [strlcpy, strlcpyBytes, htext _ _ _ (by split <;> omega)]
  cases pc with
  | emitCopy c piece len =>
    rw [WorkerPc.copy] at hcopy
    rw [ChatState.workerStep, hp] at h
    split at hcopy
    · next hfits =>
      rw [if_pos hfits] at h
      cases hcopy
      cases h
      rw [ChatState.copied]
      congr 1
      funext m
      rw [List.take_length, hlen piece _ (Nat.le_refl _), List.append_assoc, List.append_assoc,
        List.append_assoc, List.singleton_append]
      rfl
    · cases hcopy
  | failText c text =>
    rw [ChatState.workerStep, hp] at h
    cases hcopy
    cases h
    apply hset
  | emptyText c =>
    rw [ChatState.workerStep, hp] at h
    cases hcopy
    cases h
    apply hset
  | _ => cases hcopy

/-! ## What a step of a worker does to its channel -/

/-- A write of `dirty` follows before the worker does anything else. -/
def WorkerPc.Flags : WorkerPc → Prop
  | .emitCopy c piece len => (WorkerPc.emitCopy c piece len).copy.isSome = true
  | .emitDirty _ | .failText _ _ | .testEmpty _ | .emptyText _ | .clearTyping _ | .setDirty _ => True
  | _ => False

/-- A step does nothing to the channel, writes to it, or sets `dirty`. -/
inductive Effect (ch ch' : Channel) (b b' : Bool) (pc pc' : WorkerPc) : Prop
  | quiet : ch' = ch → b' = b → (pc.Flags → pc'.Flags) → Effect ch ch' b b' pc pc'
  | write : ch'.dirty = ch.dirty → b' = true → pc'.Flags → Effect ch ch' b b' pc pc'
  | raise : ch' = { ch with dirty := true } → Effect ch ch' b b' pc pc'

/-- A step of a worker with the channel `c`. -/
structure WorkerEffect (s t : ChatState) (c : Fin numChannels) (b b' : Bool) (pc pc' : WorkerPc) :
    Prop where
  ui : t.ui = s.ui
  cur : t.currentChan = s.currentChan
  workers : t.workers = s.workers
  others : ∀ d, d ≠ c → t.channels d = s.channels d
  own : Effect (s.channels c) (t.channels c) b b' pc pc'

section worker

variable {s t : ChatState} {c : Fin numChannels} {b : Bool} {pc pc' : WorkerPc}

theorem workerEffect_quiet (h : pc.Flags → pc'.Flags) : WorkerEffect s s c b b pc pc' :=
  ⟨rfl, rfl, rfl, fun _ _ => rfl, .quiet rfl rfl h⟩

theorem workerEffect_modifyMsg {p : MsgPtr} {f : Message → Message} {b' : Bool} (hb : b' = true)
    (hpc : pc'.Flags) : WorkerEffect s (s.modifyMsg p f) p.1 b b' pc pc' where
  ui := rfl
  cur := rfl
  workers := rfl
  others := fun d hd => by rw [ChatState.modifyMsg, channels_modify, if_neg hd]
  own := by
    rw [ChatState.modifyMsg, channels_modify, if_pos rfl]
    exact .write rfl hb hpc

theorem workerEffect_modify {g : Channel → Channel} {b' : Bool}
    (h : Effect (s.channels c) (g (s.channels c)) b b' pc pc') :
    WorkerEffect s (s.modify c g) c b b' pc pc' where
  ui := rfl
  cur := rfl
  workers := rfl
  others := fun d hd => by rw [channels_modify, if_neg hd]
  own := by
    rw [channels_modify, if_pos rfl]
    exact h

/-- The channel of a worker that is about to set `dirty` for the last time. -/
def OwnFlag (w : Worker) : Prop := ∀ c, w.pc = .setDirty c → c = w.mine.1

theorem workerStep_effect {w : Worker} (hw : WorkerOk s w) (hflag : OwnFlag w)
    (h : s.workerStep w.pc = some (t, pc')) :
    WorkerEffect s t w.mine.1 b (w.pc.mark b) w.pc pc' ∧ OwnFlag { w with pc := pc' } := by
  obtain ⟨wpc, p⟩ := w
  cases wpc with
  | start =>
    cases h
    exact ⟨workerEffect_quiet id, fun _ hc => (by cases hc)⟩
  | loadChan =>
    rw [ChatState.workerStep, hw.chan trivial] at h
    cases h
    exact ⟨workerEffect_quiet id, fun _ hc => (by cases hc)⟩
  | generate c => cases h
  | emitLen c piece =>
    rw [ChatState.workerStep, hw.msg trivial] at h
    cases h
    exact ⟨workerEffect_quiet False.elim, fun _ hc => (by cases hc)⟩
  | emitCopy c piece len =>
    rw [ChatState.workerStep, hw.msg trivial] at h
    simp only at h
    split at h
    · next hfits =>
      cases h
      refine ⟨workerEffect_modifyMsg ?_ trivial, fun _ hc => (by cases hc)⟩
      simp only [WorkerPc.mark, WorkerPc.copy, if_pos hfits, Option.isSome_some, Bool.true_or]
    · next hfull =>
      cases h
      have hcopy : (WorkerPc.emitCopy c piece len).copy = none := if_neg hfull
      have hmark : (WorkerPc.emitCopy c piece len).mark b = b := by
        rw [WorkerPc.mark, hcopy]
        rfl
      rw [hmark]
      refine ⟨workerEffect_quiet fun hf => ?_, fun _ hc => (by cases hc)⟩
      rw [WorkerPc.Flags, hcopy] at hf
      cases hf
  | emitDirty c =>
    rw [ChatState.workerStep, hw.chan trivial] at h
    cases h
    exact ⟨workerEffect_modify (.raise rfl), fun _ hc => (by cases hc)⟩
  | failText c text =>
    rw [ChatState.workerStep, hw.msg trivial] at h
    cases h
    exact ⟨workerEffect_modifyMsg rfl trivial, fun _ hc => (by cases hc)⟩
  | testEmpty c =>
    rw [ChatState.workerStep, hw.msg trivial] at h
    cases h
    split
    · exact ⟨workerEffect_quiet fun _ => trivial, fun _ hc => (by cases hc)⟩
    · exact ⟨workerEffect_quiet fun _ => trivial, fun _ hc => (by cases hc)⟩
  | emptyText c =>
    rw [ChatState.workerStep, hw.msg trivial] at h
    cases h
    exact ⟨workerEffect_modifyMsg rfl trivial, fun _ hc => (by cases hc)⟩
  | clearTyping c =>
    obtain rfl : c = p.1 := hw.own trivial c rfl
    cases h
    exact ⟨workerEffect_modify (.write rfl rfl trivial), fun d hd => by cases hd; rfl⟩
  | setDirty c =>
    obtain rfl : c = p.1 := hflag c rfl
    cases h
    exact ⟨workerEffect_modify (.raise rfl), fun _ hc => (by cases hc)⟩
  | clearRunning =>
    cases h
    exact ⟨⟨rfl, rfl, rfl, fun _ _ => rfl, .quiet rfl rfl False.elim⟩, fun _ hc => (by cases hc)⟩
  | done => cases h

end worker

/-! ## The invariant -/

/-- A worker with the current channel has written, and will set `dirty`. -/
def Pending (c : ChatState) (b : Bool) : Prop :=
  b = true ∧ ∃ w ∈ c.workers, w.pc.Flags ∧ w.mine.1 = c.currentChan

/-- The loop will find `dirty` set. -/
def Due (c : ChatState) (b : Bool) : Prop :=
  (c.channels c.currentChan).dirty = true ∨ Pending c b

/-- The statements of `send_message` in the channel `c`. -/
def UiPc.SendsTo (c : Fin numChannels) : UiPc → Prop
  | .testTyping d | .userText d _ | .testRunning d _ | .busyText d _ | .busyInput d | .busyDirty d
  | .setRunning d _ | .setChan d _ | .setMsg d _ | .setPrompt d _ | .setTyping d _ | .setDirty d _
  | .resetSent d _ | .create d _ => d = c
  | .push k d _ => k ≠ .greet ∧ d = c
  | _ => False

section fresh

variable (prog : Draw (List Row)) (s : Screen)

/-- The panel is up to date. -/
def Picture : Prop :=
  (∀ x ∈ s.seen, x = s.channel.texts) ∧ prog.finish s.channel.cell = some s.rows

/-- What is left of a `draw_chat` will bring the panel up to date. -/
def Coming (f : Draw (List Row)) : Prop :=
  (∀ x ∈ s.seen, x = s.channel.texts) ∧ f.finish s.channel.cell = prog.finish s.channel.cell

/-- The typing indicator is up to date. -/
def Typed : Prop := s.indicator = s.channel.typing

/-- What is up to date, if the loop will not find `dirty` set. `send_message` sets it once it has
    written anything. -/
def Screen.Fresh : Prop :=
  match s.pc with
  | .opening | .clearDirty => True
  | .sending =>
    match s.chat.ui with
    | .testTyping _ => Picture prog s ∧ Typed s
    | .resetSent _ _ | .create _ _ => False
    | _ => True
  | .startChat k => k = .sent → Typed s
  | .chat k f => Coming prog s f ∧ (k = .sent → Typed s)
  | .setNeed k => Picture prog s ∧ (k = .sent → Typed s)
  | .head | .poll | .testDirty => Picture prog s ∧ Typed s
  | .testNeed | .input .dirty => Picture prog s ∧ (s.cleared = false → Typed s)
  | .input _ => Picture prog s

/-- What `dirty` and the history of it are at each statement. -/
def Screen.Phase : Prop :=
  match s.pc with
  | .sending => s.cleared = false ∧ s.chat.ui.SendsTo s.chat.currentChan
  | .clearDirty => s.cleared = false ∧ s.channel.dirty = true
  | .startChat .dirty | .chat .dirty _ | .setNeed .dirty => s.cleared = true
  | .setNeed .sent => s.cleared = false
  | .setNeed _ => False
  | .testNeed => s.cleared = true → s.needInputRedraw = true
  | .input .dirty => True
  | _ => s.cleared = false

/-- The thread is in the loop of `chat_run`, outside `send_message`. -/
def ScreenPc.Inside : ScreenPc → Prop
  | .opening | .sending => False
  | _ => True

structure ScreenInv : Prop where
  chat : ChatInv s.chat
  flag : ∀ w ∈ s.chat.workers, OwnFlag w
  loop : s.pc.Inside → s.chat.ui = .loop
  phase : s.Phase
  fresh : s.Fresh prog ∨ Due s.chat s.unflagged

end fresh

section ui

variable {prog : Draw (List Row)} {s : Screen}

/-- A statement that does not touch the chat. -/
theorem ScreenInv.goOn (hs : ScreenInv prog s) {t : Screen} (hchat : t.chat = s.chat)
    (hmark : t.unflagged = s.unflagged) (hin : s.pc.Inside) (hphase : t.Phase)
    (hfresh : s.Fresh prog → t.Fresh prog) : ScreenInv prog t where
  chat := by rw [hchat]; exact hs.chat
  flag := by rw [hchat]; exact hs.flag
  loop := fun _ => by rw [hchat]; exact hs.loop hin
  phase := hphase
  fresh := by
    rw [hchat, hmark]
    exact hs.fresh.imp_left hfresh

/-- `send_message` goes on. -/
theorem ScreenInv.sends (hs : ScreenInv prog s) (hpc : s.pc = .sending) {t : ChatState} {ticks : Nat}
    (h : s.chat.uiStep ticks = some t) (hflag : ∀ w ∈ t.workers, OwnFlag w)
    (hto : t.ui.SendsTo t.currentChan)
    (hfresh : Screen.Fresh prog { s with chat := t } ∨ Due t s.unflagged) :
    ScreenInv prog
      { s with chat := t, pc := if t.ui = .loop then .startChat .sent else .sending } := by
  have hphase := hs.phase
  rw [Screen.Phase, hpc] at hphase
  have hne : t.ui ≠ .loop := fun hui => by
    rw [hui] at hto
    exact hto
  rw [if_neg hne]
  refine ⟨hs.chat.uiStep h, hflag, False.elim, ⟨hphase.1, hto⟩, ?_⟩
  rw [Screen.Fresh, hpc] at hfresh
  exact hfresh

/-- `send_message` returns. -/
theorem ScreenInv.sent (hs : ScreenInv prog s) (hpc : s.pc = .sending) {t : ChatState} {ticks : Nat}
    (h : s.chat.uiStep ticks = some t) (hflag : ∀ w ∈ t.workers, OwnFlag w) (hui : t.ui = .loop)
    (hfresh : Typed { s with chat := t } ∨ Due t s.unflagged) :
    ScreenInv prog
      { s with chat := t, pc := if t.ui = .loop then .startChat .sent else .sending } := by
  have hphase := hs.phase
  rw [Screen.Phase, hpc] at hphase
  rw [if_pos hui]
  exact ⟨hs.chat.uiStep h, hflag, fun _ => hui, hphase.1, hfresh.imp_left fun ht _ => ht⟩

/-- A new worker has not come to its last write of `dirty`. -/
theorem uiStep_flag {c t : ChatState} {ticks : Nat} (hc : ∀ w ∈ c.workers, OwnFlag w)
    (h : c.uiStep ticks = some t) : ∀ w ∈ t.workers, OwnFlag w := by
  by_cases hl : c.ui.Launch
  · rw [ChatState.uiStep] at h
    cases hui : c.ui with
    | create d m =>
      rw [hui] at h
      cases h
      intro w hw
      rcases List.mem_append.mp hw with hold | hnew
      · exact hc w hold
      · rw [List.mem_singleton.mp hnew]
        exact nofun
    | setRunning d m => rw [hui] at h; cases h; exact hc
    | setChan d m => rw [hui] at h; cases h; exact hc
    | setMsg d m => rw [hui] at h; cases h; exact hc
    | setPrompt d m => rw [hui] at h; cases h; exact hc
    | setTyping d m => rw [hui] at h; cases h; exact hc
    | setDirty d m => rw [hui] at h; cases h; exact hc
    | resetSent d m => rw [hui] at h; cases h; exact hc
    | _ => rw [hui] at hl; exact hl.elim
  · rw [(uiStep_keeps h hl).workers]
    exact hc

theorem dirty_setDirty (c : ChatState) (d : Fin numChannels) (b : Bool) :
    ((c.setDirty d b).channels d).dirty = b := by
  rw [ChatState.setDirty, channels_modify, if_pos rfl]

/-- `push_message` goes on or returns. -/
theorem pushStep_next {c t : ChatState} {ticks : Nat} {k : Purpose} {d : Fin numChannels} {pc : PushPc}
    (h : c.pushStep ticks k d pc = some t) :
    t.currentChan = c.currentChan ∧ ((∃ m, t.ui = k.next d m) ∨ ∃ pc', t.ui = .push k d pc') := by
  cases pc with
  | count m =>
    rw [ChatState.pushStep] at h
    split at h
    · cases h
    · cases h
      exact ⟨rfl, .inl ⟨m, rfl⟩⟩
  | _ => cases h; exact ⟨rfl, .inr ⟨_, rfl⟩⟩

theorem ScreenInv.sendStep (hs : ScreenInv prog s) (hpc : s.pc = .sending) {t : ChatState}
    {ticks : Nat} (h : s.chat.uiStep ticks = some t) :
    ScreenInv prog
      { s with chat := t, pc := if t.ui = .loop then .startChat .sent else .sending } := by
  have hflag := uiStep_flag hs.flag h
  have hto : s.chat.ui.SendsTo s.chat.currentChan := by
    have hphase := hs.phase
    rw [Screen.Phase, hpc] at hphase
    exact hphase.2
  have hfresh := hs.fresh
  rw [Screen.Fresh, hpc] at hfresh
  have hstep := h
  rw [ChatState.uiStep] at hstep
  cases hui : s.chat.ui with
  | testTyping d =>
    rw [hui] at hstep hto hfresh
    replace hstep : some { s.chat with
      ui := if s.chat.input = [] ∨ (s.chat.channels d).typing = true then .loop
        else .push .user d .slot } = some t := hstep
    by_cases hquiet : s.chat.input = [] ∨ (s.chat.channels d).typing = true
    · rw [if_pos hquiet] at hstep
      cases hstep
      exact hs.sent hpc h hflag rfl (hfresh.imp_left And.right)
    · rw [if_neg hquiet] at hstep
      cases hstep
      apply hs.sends hpc h hflag ⟨nofun, hto⟩
      rw [Screen.Fresh, hpc]
      exact .inl trivial
  | push k d pc =>
    rw [hui] at hstep hto
    obtain ⟨hcur, hnext⟩ := pushStep_next hstep
    have hto' : t.ui.SendsTo t.currentChan := by
      rw [hcur]
      rcases hnext with ⟨m, hnext⟩ | ⟨pc', hnext⟩
      · rw [hnext]
        cases k with
        | greet => exact absurd rfl hto.1
        | user => exact hto.2
        | bot => exact hto.2
      · rw [hnext]
        exact hto
    apply hs.sends hpc h hflag hto'
    rw [Screen.Fresh, hpc]
    rcases hnext with ⟨m, hnext⟩ | ⟨pc', hnext⟩
    · cases k with
      | greet => exact absurd rfl hto.1
      | user => exact .inl (by simp only [hnext, Purpose.next])
      | bot => exact .inl (by simp only [hnext, Purpose.next])
    · exact .inl (by simp only [hnext])
  | testRunning d m =>
    rw [hui] at hstep hto
    replace hstep : some { s.chat with
      ui := if s.chat.botRunning = true then .busyText d m else .setRunning d m } = some t := hstep
    split at hstep
    all_goals
      cases hstep
      apply hs.sends hpc h hflag hto
      rw [Screen.Fresh, hpc]
      exact .inl trivial
  | setDirty d m =>
    rw [hui] at hstep hto
    cases hstep
    obtain rfl : d = s.chat.currentChan := hto
    exact hs.sends hpc h hflag rfl (.inr (.inl (dirty_setDirty ..)))
  | resetSent d m =>
    rw [hui] at hstep hto hfresh
    cases hstep
    have hdue : Due s.chat s.unflagged := hfresh.resolve_left id
    exact hs.sends hpc h hflag hto (.inr hdue)
  | create d m =>
    rw [hui] at hstep hfresh
    cases hstep
    apply hs.sent hpc h hflag rfl
    rcases hfresh with hf | hdirty | ⟨hmark, w, hw, hwf⟩
    · exact hf.elim
    · exact .inr (.inl hdirty)
    · exact .inr (.inr ⟨hmark, w, List.mem_append_left _ hw, hwf⟩)
  | busyDirty d =>
    rw [hui] at hstep hto
    cases hstep
    obtain rfl : d = s.chat.currentChan := hto
    exact hs.sent hpc h hflag rfl (.inr (.inl (dirty_setDirty ..)))
  | userText d m =>
    rw [hui] at hstep hto
    cases hstep
    apply hs.sends hpc h hflag ⟨nofun, hto⟩
    rw [Screen.Fresh, hpc]
    exact .inl trivial
  | outside => rw [hui] at hto; exact hto.elim
  | resetInput => rw [hui] at hto; exact hto.elim
  | testGreet => rw [hui] at hto; exact hto.elim
  | loop => rw [hui] at hto; exact hto.elim
  | greetText m => rw [hui] at hto; exact hto.elim
  | leave => rw [hui] at hto; exact hto.elim
  | _ =>
    rw [hui] at hstep hto
    cases hstep
    apply hs.sends hpc h hflag hto
    rw [Screen.Fresh, hpc]
    exact .inl trivial

/-- Every statement of the thread of `chat_run`. -/
theorem ScreenInv.uiStep (hs : ScreenInv prog s) {ticks : Nat} {t : Screen}
    (h : s.uiStep prog ticks = some t) : ScreenInv prog t := by
  have hphase := hs.phase
  have hfresh : s.Fresh prog → s.Fresh prog := id
  rw [Screen.Phase] at hphase
  conv at hfresh => rhs; rw [Screen.Fresh]
  rw [Screen.uiStep] at h
  cases hpc : s.pc with
  | opening =>
    rw [hpc] at h hphase
    obtain ⟨c, hc, h⟩ := Option.bind_eq_some_iff.mp h
    cases h
    have hflag := uiStep_flag hs.flag hc
    by_cases hui : c.ui = .loop
    · rw [if_pos hui]
      exact ⟨hs.chat.uiStep hc, hflag, fun _ => hui, hphase, .inl nofun⟩
    · rw [if_neg hui]
      exact ⟨hs.chat.uiStep hc, hflag, False.elim, hphase, .inl trivial⟩
  | sending =>
    rw [hpc] at h
    obtain ⟨c, hc, h⟩ := Option.bind_eq_some_iff.mp h
    cases h
    exact hs.sendStep hpc hc
  | head =>
    rw [hpc] at h hphase hfresh
    have hin : s.pc.Inside := by rw [hpc]; trivial
    by_cases hrun : s.running = true
    · rw [if_pos hrun] at h
      cases h
      exact hs.goOn rfl rfl hin hphase hfresh
    · rw [if_neg hrun] at h
      cases h
      exact ⟨hs.chat.keep (c := none) (.same rfl rfl rfl rfl) trivial, hs.flag, False.elim, hphase,
        .inl trivial⟩
  | poll => rw [hpc] at h; cases h
  | testDirty =>
    rw [hpc] at h hphase hfresh
    have hin : s.pc.Inside := by rw [hpc]; trivial
    replace h : some { s with
      pc := if s.channel.dirty = true then .clearDirty else .testNeed } = some t := h
    by_cases hd : s.channel.dirty = true
    · rw [if_pos hd] at h
      cases h
      exact hs.goOn rfl rfl hin ⟨hphase, hd⟩ fun _ => trivial
    · rw [if_neg hd] at h
      cases h
      refine hs.goOn rfl rfl hin ?_ ?_
      · intro hc
        rw [show s.cleared = false from hphase] at hc
        cases hc
      · intro hf
        exact ⟨(hfresh hf).1, fun _ => (hfresh hf).2⟩
  | clearDirty =>
    rw [hpc] at h
    cases h
    have hin : s.pc.Inside := by rw [hpc]; trivial
    have hchat : s.chat.step .redraw = some (s.chat.setDirty s.chat.currentChan false) :=
      if_pos (hs.loop hin)
    exact ⟨hs.chat.step hchat, hs.flag, fun _ => hs.loop hin, rfl, .inl nofun⟩
  | startChat k =>
    rw [hpc] at h hphase hfresh
    have hin : s.pc.Inside := by rw [hpc]; trivial
    cases h
    refine hs.goOn rfl rfl hin ?_ ?_
    · cases k with
      | _ => exact hphase
    · intro hf
      exact ⟨⟨fun x hx => List.mem_singleton.mp hx, rfl⟩, hfresh hf⟩
  | chat k f =>
    rw [hpc] at h hphase hfresh
    have hin : s.pc.Inside := by rw [hpc]; trivial
    cases f with
    | stuck => cases h
    | read c g =>
      cases h
      refine hs.goOn rfl rfl hin ?_ ?_
      · cases k with
        | _ => exact hphase
      · intro hf
        obtain ⟨⟨hseen, hrows⟩, htyped⟩ := hfresh hf
        refine ⟨⟨fun x hx => ?_, hrows⟩, htyped⟩
        rcases List.mem_append.mp hx with hold | hnew
        · exact hseen x hold
        · exact List.mem_singleton.mp hnew
    | done rows =>
      cases h
      refine hs.goOn rfl rfl hin ?_ ?_
      · cases k with
        | _ => exact hphase
      · intro hf
        obtain ⟨⟨hseen, hrows⟩, htyped⟩ := hfresh hf
        have hpic : Picture prog { s with rows := rows, pc := k.next } := ⟨hseen, hrows.symm⟩
        cases k with
        | opened => exact hpic
        | switched => exact hpic
        | sent => exact ⟨hpic, htyped⟩
        | dirty => exact ⟨hpic, nofun⟩
  | setNeed k =>
    rw [hpc] at h hphase hfresh
    have hin : s.pc.Inside := by rw [hpc]; trivial
    cases k with
    | opened => exact hphase.elim
    | switched => exact hphase.elim
    | sent =>
      cases h
      exact hs.goOn rfl rfl hin hphase fun hf => ⟨(hfresh hf).1, (hfresh hf).2 rfl⟩
    | dirty =>
      cases h
      refine hs.goOn rfl rfl hin (fun _ => rfl) ?_
      intro hf
      refine ⟨(hfresh hf).1, fun hc => ?_⟩
      rw [show s.cleared = true from hphase] at hc
      cases hc
  | testNeed =>
    rw [hpc] at h hphase hfresh
    have hin : s.pc.Inside := by rw [hpc]; trivial
    replace h : some { s with
      pc := if s.needInputRedraw = true then .input .dirty else .head } = some t := h
    by_cases hneed : s.needInputRedraw = true
    · rw [if_pos hneed] at h
      cases h
      exact hs.goOn rfl rfl hin trivial hfresh
    · rw [if_neg hneed] at h
      cases h
      have hc : s.cleared = false := Bool.eq_false_iff.mpr fun hc => hneed (hphase hc)
      exact hs.goOn rfl rfl hin hc fun hf => ⟨(hfresh hf).1, (hfresh hf).2 hc⟩
  | input k =>
    rw [hpc] at h hfresh
    have hin : s.pc.Inside := by rw [hpc]; trivial
    cases h
    refine hs.goOn rfl rfl hin ?_ ?_
    · cases k with
      | _ => exact rfl
    · intro hf
      have hpic : Picture prog s := by
        cases k with
        | dirty => exact (hfresh hf).1
        | _ => exact hfresh hf
      cases k with
      | _ => exact ⟨hpic, rfl⟩

/-- A key that changes the input. -/
theorem ScreenInv.edit (hs : ScreenInv prog s) (hpc : s.pc = .poll) (text : List UInt8) (b : Bool) :
    ScreenInv prog { s with chat := { s.chat with input := text }, needInputRedraw := b } := by
  obtain ⟨chat, pc⟩ := s
  obtain rfl : pc = .poll := hpc
  have hui : chat.ui = .loop := hs.loop trivial
  have hok : UiOk { chat with input := text } chat.ui := by rw [hui]; trivial
  exact ⟨hs.chat.keep (c := none) (.same rfl rfl rfl rfl) hok, hs.flag, fun _ => hui, hs.phase,
    hs.fresh⟩

/-- A key. -/
theorem ScreenInv.keyStep (hs : ScreenInv prog s) (hpc : s.pc = .poll) (k : Option Key) :
    ScreenInv prog (s.keyStep k) := by
  have hphase := hs.phase
  have hfresh : s.Fresh prog → s.Fresh prog := id
  rw [Screen.Phase, hpc] at hphase
  conv at hfresh => rhs; rw [Screen.Fresh, hpc]
  have hin : s.pc.Inside := by rw [hpc]; trivial
  have hchat : ∀ key, s.chat.step (.key key) = some (s.chat.keyStep key) :=
    fun key => if_pos (hs.loop hin)
  cases k with
  | none => exact hs.goOn rfl rfl hin hphase hfresh
  | some key =>
    cases key with
    | escape => exact hs.goOn rfl rfl hin hphase hfresh
    | tab => exact ⟨hs.chat.step (hchat .tab), hs.flag, fun _ => hs.loop hin, hphase, .inl nofun⟩
    | enter =>
      exact ⟨hs.chat.step (hchat .enter), hs.flag, False.elim, ⟨hphase, rfl⟩, hs.fresh.imp_left hfresh⟩
    | backspace => exact hs.edit hpc _ _
    | char b =>
      show ScreenInv prog { s with
        chat := s.chat.keyStep (.char b)
        needInputRedraw := s.needInputRedraw || decide ((s.chat.keyStep (.char b)).input ≠ s.chat.input) }
      rw [ChatState.keyStep]
      split
      · exact hs.edit hpc _ _
      · exact hs.edit hpc s.chat.input _

end ui

/-! ## The workers and every interleaving -/

section run

variable {prog : Draw (List Row)} {s t : Screen}

/-- What is up to date stays so when the channel does not change. -/
theorem Screen.Fresh.same {c : ChatState} {b : Bool} (hui : c.ui = s.chat.ui)
    (hch : c.channels c.currentChan = s.channel) (h : s.Fresh prog) :
    Screen.Fresh prog { s with chat := c, unflagged := b } := by
  have hchan : Screen.channel { s with chat := c, unflagged := b } = s.channel := hch
  have hpic : Picture prog { s with chat := c, unflagged := b } ↔ Picture prog s := by
    rw [Picture, Picture, hchan]
  have htyped : Typed { s with chat := c, unflagged := b } ↔ Typed s := by
    rw [Typed, Typed, hchan]
  have hcoming : ∀ f, Coming prog { s with chat := c, unflagged := b } f ↔ Coming prog s f :=
    fun f => by rw [Coming, Coming, hchan]
  unfold Screen.Fresh at h ⊢
  simp only [hpic, htyped, hcoming, hui]
  exact h

/-- What is pending is pending from the only worker under way. -/
theorem Pending.own {c : ChatState} {b : Bool} (hc : ChatInv c) {i : Nat} {w : Worker}
    (hi : c.workers[i]? = some w) (hne : w.pc ≠ .done) (h : Pending c b) :
    w.pc.Flags ∧ w.mine.1 = c.currentChan := by
  obtain ⟨-, v, hv, hflags, hchan⟩ := h
  obtain ⟨j, hj⟩ := List.mem_iff_getElem?.mp hv
  have hvne : v.pc ≠ .done := fun hdone => by
    rw [hdone] at hflags
    exact hflags
  obtain rfl := hc.single i j w v hi hj hne hvne
  rw [hi] at hj
  cases hj
  exact ⟨hflags, hchan⟩

section effect

variable {c u : ChatState} {i : Nat} {w : Worker} {b b' : Bool} {pc : WorkerPc}

theorem WorkerEffect.pending (hi : c.workers[i]? = some w)
    (he : WorkerEffect c u w.mine.1 b b' w.pc pc) (hb : b' = true) (hf : pc.Flags)
    (hc : w.mine.1 = c.currentChan) : Pending (u.putWorker i w pc) b' := by
  have hlen : i < u.workers.length := by
    rw [he.workers]
    exact (List.getElem?_eq_some_iff.mp hi).1
  refine ⟨hb, { w with pc := pc }, List.mem_set hlen _, hf, ?_⟩
  rw [hc]
  exact he.cur.symm

/-- A worker leaves `dirty` set. -/
theorem WorkerEffect.dirty (he : WorkerEffect c u w.mine.1 b b' w.pc pc)
    (h : (c.channels c.currentChan).dirty = true) : (u.channels u.currentChan).dirty = true := by
  rw [he.cur]
  by_cases hc : c.currentChan = w.mine.1
  · have hown := he.own
    rw [← hc] at hown
    cases hown with
    | quiet hch _ _ => rw [hch]; exact h
    | write hd _ _ => exact hd.trans h
    | raise hch => rw [hch]
  · rw [he.others _ hc]
    exact h

/-- The current channel stays as it is, or the loop will find `dirty` set. -/
theorem WorkerEffect.due (hinv : ChatInv c) (hi : c.workers[i]? = some w) (hne : w.pc ≠ .done)
    (he : WorkerEffect c u w.mine.1 b b' w.pc pc) :
    (u.channels u.currentChan = c.channels c.currentChan ∧
      (Due c b → Due (u.putWorker i w pc) b')) ∨ Due (u.putWorker i w pc) b' := by
  by_cases hc : c.currentChan = w.mine.1
  · have hown := he.own
    rw [← hc] at hown
    cases hown with
    | quiet hch hb hf =>
      refine .inl ⟨by rw [he.cur, hch], fun hdue => hdue.imp he.dirty fun hp => ?_⟩
      exact he.pending hi (hb.trans hp.1) (hf (hp.own hinv hi hne).1) hc.symm
    | write _ hb hf => exact .inr (.inr (he.pending hi hb hf hc.symm))
    | raise hch =>
      refine .inr (.inl ?_)
      show (u.channels u.currentChan).dirty = true
      rw [he.cur, hch]
  · refine .inl ⟨by rw [he.cur, he.others _ hc], fun hdue => hdue.imp he.dirty fun hp => ?_⟩
    exact absurd (hp.own hinv hi hne).2.symm hc

end effect

theorem putWorker_self {c : ChatState} {i : Nat} {w : Worker} (hi : c.workers[i]? = some w) :
    c.putWorker i w w.pc = c := by
  obtain ⟨hlen, rfl⟩ := List.getElem?_eq_some_iff.mp hi
  rw [ChatState.putWorker, List.set_getElem_self]

/-- A worker that copies will set `dirty`. -/
theorem flags_of_copy {pc : WorkerPc} {x : Nat × List UInt8} (h : pc.copy = some x) :
    pc.Flags ∧ pc.Writing ∧ ∀ d, pc ≠ .setDirty d := by
  cases pc with
  | emitCopy d piece len =>
    refine ⟨?_, trivial, nofun⟩
    rw [WorkerPc.Flags, h]
    rfl
  | failText d text => exact ⟨trivial, trivial, nofun⟩
  | emptyText d => exact ⟨trivial, trivial, nofun⟩
  | _ => cases h

/-- A step of a worker. -/
theorem ScreenInv.worker (hs : ScreenInv prog s) {i : Nat} {w : Worker} {c : ChatState} {b : Bool}
    {pc : WorkerPc} (hi : s.chat.workers[i]? = some w) (hne : w.pc ≠ .done)
    (he : WorkerEffect s.chat c w.mine.1 s.unflagged b w.pc pc) (hflag : OwnFlag { w with pc := pc })
    (hinv : ChatInv (c.putWorker i w pc)) :
    ScreenInv prog { s with chat := c.putWorker i w pc, unflagged := b } := by
  refine ⟨hinv, ?_, fun hin => he.ui.trans (hs.loop hin), ?_, ?_⟩
  · intro v hv
    rcases List.mem_or_eq_of_mem_set hv with hold | rfl
    · rw [he.workers] at hold
      exact hs.flag v hold
    · exact hflag
  · have hphase := hs.phase
    unfold Screen.Phase at hphase ⊢
    cases hpc : s.pc with
    | sending =>
      rw [hpc] at hphase
      refine ⟨hphase.1, ?_⟩
      show c.ui.SendsTo c.currentChan
      rw [he.ui, he.cur]
      exact hphase.2
    | clearDirty => rw [hpc] at hphase; exact ⟨hphase.1, he.dirty hphase.2⟩
    | startChat k => rw [hpc] at hphase; cases k with | _ => exact hphase
    | chat k f => rw [hpc] at hphase; cases k with | _ => exact hphase
    | setNeed k => rw [hpc] at hphase; cases k with | _ => exact hphase
    | input k => rw [hpc] at hphase; cases k with | _ => exact hphase
    | _ => rw [hpc] at hphase; exact hphase
  · rcases he.due hs.chat hi hne with ⟨hch, hdue⟩ | hdue
    · exact hs.fresh.imp (Screen.Fresh.same he.ui hch) hdue
    · exact .inr hdue

/-- A worker goes on when the model has a piece for it, or has finished. -/
theorem ScreenInv.leaveGenerate (hs : ScreenInv prog s) {i : Nat} {w : Worker} {d : Fin numChannels}
    {pc : WorkerPc} (hi : s.chat.workers[i]? = some w) (hpc : w.pc = .generate d)
    (hflag : OwnFlag { w with pc := pc }) (hinv : ChatInv (s.chat.putWorker i w pc)) :
    ScreenInv prog { s with chat := s.chat.putWorker i w pc } := by
  have hne : w.pc ≠ .done := by simp [hpc]
  have heff : WorkerEffect s.chat s.chat w.mine.1 s.unflagged s.unflagged w.pc pc :=
    workerEffect_quiet (by rw [hpc]; exact False.elim)
  exact hs.worker hi hne heff hflag hinv

/-- Every step keeps the invariant. -/
theorem ScreenInv.step (hs : ScreenInv prog s) {e : ScreenEvent} (h : s.step prog e = some t) :
    ScreenInv prog t := by
  cases e with
  | run =>
    rw [Screen.step] at h
    cases hpc : s.pc with
    | opening =>
      rw [hpc] at h
      obtain ⟨c, hc, h⟩ := Option.bind_eq_some_iff.mp h
      cases h
      obtain ⟨hk, -, -⟩ := step_other hc trivial
      have hphase := hs.phase
      rw [Screen.Phase, hpc] at hphase
      refine ⟨hs.chat.step hc, ?_, False.elim, hphase, .inl trivial⟩
      show ∀ w ∈ c.workers, OwnFlag w
      rw [hk.workers]
      exact hs.flag
    | _ => rw [hpc] at h; cases h
  | key k =>
    rw [Screen.step] at h
    cases hpc : s.pc with
    | poll => rw [hpc] at h; cases h; exact hs.keyStep hpc k
    | _ => rw [hpc] at h; cases h
  | ui ticks => exact hs.uiStep h
  | worker i =>
    rw [Screen.step] at h
    obtain ⟨w, hi, h⟩ := Option.bind_eq_some_iff.mp h
    obtain ⟨c, hc, h⟩ := Option.bind_eq_some_iff.mp h
    cases h
    have hinv := hs.chat.step hc
    rw [ChatState.step, hi, Option.bind_eq_bind, Option.bind_some] at hc
    obtain ⟨⟨u, pc⟩, hstep, hc⟩ := Option.bind_eq_some_iff.mp hc
    cases hc
    have hmem := List.mem_of_getElem? hi
    have hne : w.pc ≠ .done := fun hdone => by
      rw [hdone] at hstep
      cases hstep
    obtain ⟨heff, hflag⟩ := workerStep_effect (hs.chat.workers w hmem) (hs.flag w hmem) hstep
    exact hs.worker hi hne heff hflag hinv
  | copied i n =>
    rw [Screen.step] at h
    obtain ⟨w, hi, h⟩ := Option.bind_eq_some_iff.mp h
    obtain ⟨⟨off, bytes⟩, hcopy, h⟩ := Option.bind_eq_some_iff.mp h
    obtain ⟨p, hp, h⟩ := Option.bind_eq_some_iff.mp h
    split at h
    · cases h
      obtain ⟨hflags, hwriting, hown⟩ := flags_of_copy hcopy
      have hmem := List.mem_of_getElem? hi
      have hw := hs.chat.workers w hmem
      obtain rfl : w.mine = p := Option.some.inj ((hw.msg hwriting).symm.trans hp)
      have hne : w.pc ≠ .done := fun hdone => by
        rw [hdone] at hflags
        exact hflags
      have hmoves := moves_modifyMsg s.chat w.mine
        fun m => { m with text := m.text.take off ++ bytes.take n ++ m.text.drop (off + n) }
      have hok : WorkerOk (s.chat.copied w.mine off bytes n) { w with pc := w.pc } :=
        hw.goOn (t := s.chat.copied w.mine off bytes n) hwriting rfl rfl
          (fun d => typing_modifyMsg ..) (hw.own hwriting)
      have hself := putWorker_self (c := s.chat.copied w.mine off bytes n) hi
      have hinv := hs.chat.moves hi hne hmoves hok
      have heff : WorkerEffect s.chat (s.chat.copied w.mine off bytes n) w.mine.1 s.unflagged true
          w.pc w.pc := workerEffect_modifyMsg rfl hflags
      have hres := hs.worker hi hne heff (fun d hd => absurd hd (hown d)) hinv
      rw [hself] at hres
      exact hres
    · cases h
  | emit i piece =>
    rw [Screen.step] at h
    obtain ⟨c, hc, h⟩ := Option.bind_eq_some_iff.mp h
    cases h
    have hinv := hs.chat.step hc
    rw [ChatState.step] at hc
    obtain ⟨w, hi, hc⟩ := Option.bind_eq_some_iff.mp hc
    split at hc
    · next d hpc =>
      cases hc
      exact hs.leaveGenerate hi hpc (fun _ hc => by cases hc) hinv
    · cases hc
  | finish i n =>
    rw [Screen.step] at h
    obtain ⟨c, hc, h⟩ := Option.bind_eq_some_iff.mp h
    cases h
    have hinv := hs.chat.step hc
    rw [ChatState.step] at hc
    obtain ⟨w, hi, hc⟩ := Option.bind_eq_some_iff.mp hc
    split at hc
    · next d hpc =>
      cases hc
      have hflag : OwnFlag { w with pc := afterGenerate d n } := by
        intro e he
        simp only [afterGenerate] at he
        split at he
        · cases he
        · cases he
      exact hs.leaveGenerate hi hpc hflag hinv
    · cases hc

theorem screenInv_initial {s : Screen} (h : s.Initial) : ScreenInv prog s := by
  obtain ⟨hchat, hpc, hcleared, -⟩ := h
  obtain ⟨chat, pc⟩ := s
  obtain rfl : pc = .opening := hpc
  refine ⟨chatInv_initial hchat, fun w hw => ?_, False.elim, hcleared, .inl trivial⟩
  obtain ⟨-, -, -, -, -, -, -, hworkers⟩ := hchat
  have hw' : w ∈ chat.workers := hw
  rw [hworkers] at hw'
  cases hw'

theorem screenInv_reachable (h : ScreenReachable prog s) : ScreenInv prog s :=
  h.invariant (fun _ => screenInv_initial) fun _ _ hs ⟨_, hstep⟩ => hs.step hstep

/-- In the loop, a picture that is not the picture of the channel is due, or a redraw is under
    way. -/
theorem ScreenInv.shows (hs : ScreenInv prog s) (hloop : s.pc.Looping) :
    s.Shows prog ∨ Due s.chat s.unflagged ∨ s.cleared = true ∧ s.pc.Redrawing := by
  have hphase := hs.phase
  have hfresh := hs.fresh
  rw [Screen.Phase] at hphase
  rw [Screen.Fresh] at hfresh
  have hshows : Picture prog s ∧ Typed s → s.Shows prog := fun h => ⟨h.1.1, h.1.2, h.2⟩
  have hmaybe : s.pc.Redrawing → (Picture prog s ∧ (s.cleared = false → Typed s)) ∨
      Due s.chat s.unflagged →
      s.Shows prog ∨ Due s.chat s.unflagged ∨ s.cleared = true ∧ s.pc.Redrawing := by
    intro hredraw hf
    cases hc : s.cleared with
    | true => exact .inr (.inr ⟨rfl, hredraw⟩)
    | false => exact hf.imp (fun h => hshows ⟨h.1, h.2 hc⟩) .inl
  cases hpc : s.pc with
  | head => rw [hpc] at hfresh; exact hfresh.imp hshows .inl
  | poll => rw [hpc] at hfresh; exact hfresh.imp hshows .inl
  | testDirty => rw [hpc] at hfresh; exact hfresh.imp hshows .inl
  | clearDirty => rw [hpc] at hphase; exact .inr (.inl (.inl hphase.2))
  | testNeed => rw [hpc] at hfresh hmaybe; exact hmaybe trivial hfresh
  | startChat k =>
    rw [hpc] at hphase hloop
    cases k with
    | dirty => exact .inr (.inr ⟨hphase, trivial⟩)
    | _ => exact hloop.elim
  | chat k f =>
    rw [hpc] at hphase hloop
    cases k with
    | dirty => exact .inr (.inr ⟨hphase, trivial⟩)
    | _ => exact hloop.elim
  | setNeed k =>
    rw [hpc] at hphase hloop
    cases k with
    | dirty => exact .inr (.inr ⟨hphase, trivial⟩)
    | _ => exact hloop.elim
  | input k =>
    rw [hpc] at hfresh hmaybe hloop
    cases k with
    | dirty => exact hmaybe trivial hfresh
    | _ => exact hloop.elim
  | opening => rw [hpc] at hloop; exact hloop.elim
  | sending => rw [hpc] at hloop; exact hloop.elim

end run

/-- In every reachable state of the loop, outside the writes of a worker, a screen that does not show
    the current channel is drawn again: `dirty` is set, or was cleared and the `draw_chat` and
    `draw_input` that follow are not both complete. -/
theorem redraw_not_lost (fuel : Nat) (chatCols chatRows : Int) (s : Screen)
    (h : ScreenReachable (drawChat fuel chatCols chatRows) s) (hloop : s.pc.Looping)
    (hmark : s.unflagged = false) (hshows : ¬ s.Shows (drawChat fuel chatCols chatRows)) :
    s.channel.dirty = true ∨ s.cleared = true ∧ s.pc.Redrawing := by
  rcases (screenInv_reachable h).shows hloop with hs | hdue | hcleared
  · exact absurd hs hshows
  · rcases hdue with hdirty | ⟨hb, -⟩
    · exact .inl hdirty
    · rw [hmark] at hb
      cases hb
  · exact .inr hcleared

def Screen.after (prog : Draw (List Row)) (s : Screen) (es : List ScreenEvent) : Option Screen :=
  es.foldlM (Screen.step prog) s

theorem screenReachable_after {prog : Draw (List Row)} {s t : Screen} {es : List ScreenEvent}
    (hs : ScreenReachable prog s) (h : s.after prog es = some t) : ScreenReachable prog t :=
  Reach.foldlM hs h

/-- A chat that was never opened. -/
def sampleScreen : Screen where
  chat := sampleStart
  pc := .opening
  running := false
  needInputRedraw := false
  rows := []
  indicator := false
  seen := []
  cleared := false
  unflagged := false

/-- The chat is opened and drawn, and one letter is sent. -/
def sampleScreenEvents : List ScreenEvent :=
  .run :: List.replicate 508 (.ui 0) ++ [.key (some (.char 97)), .key (some .enter)] ++
    List.replicate 539 (.ui 0)

def ScreenPc.isPoll : ScreenPc → Bool
  | .poll => true
  | _ => false

/-- The bot has been asked, and the indicator does not show it yet. -/
theorem redraw_not_lost_sample : ∃ s,
    sampleScreen.after (drawChat 200 202 9) sampleScreenEvents = some s ∧ s.indicator = false ∧
      s.channel.typing = true ∧ (s.channel.dirty = true ∨ s.cleared = true ∧ s.pc.Redrawing) := by
  have hrun : (sampleScreen.after (drawChat 200 202 9) sampleScreenEvents).map
      (fun s => (s.pc.isPoll, s.unflagged, s.indicator, s.channel.typing)) =
        some (true, false, false, true) := by decide +kernel
  obtain ⟨s, hs, hview⟩ := Option.map_eq_some_iff.mp hrun
  simp only [Prod.mk.injEq] at hview
  obtain ⟨hpoll, hmark, hindicator, htyping⟩ := hview
  have hloop : s.pc.Looping := by
    cases hpc : s.pc with
    | poll => trivial
    | _ => rw [hpc] at hpoll; cases hpoll
  have hinit : sampleScreen.Initial :=
    ⟨⟨fun _ => ⟨rfl, rfl⟩, rfl, rfl, rfl, rfl, rfl, rfl, rfl⟩, rfl, rfl, rfl⟩
  have hshows : ¬ s.Shows (drawChat 200 202 9) := fun hsh => by
    have htyped := hsh.typing
    rw [hindicator, htyping] at htyped
    cases htyped
  exact ⟨s, hs, hindicator, htyping, redraw_not_lost 200 202 9 s
    (screenReachable_after (.init hinit) hs) hloop hmark hshows⟩

end ChocoOs.Chat
