import ChocoOs.Lib.Transition
import Mathlib.Logic.Function.Basic
import Mathlib.Algebra.GroupWithZero.Nat

/-!
# The chat and its bot

`chat_run` takes keys and sends messages; `bot_worker` lets a model answer, on a thread of its own.
A step is one statement of one thread. What only draws is left out. A null pointer that is followed,
or a counter that overflows, ends a run.
-/

namespace ChocoOs.Chat
open ProgLib

/-- `MSG_TEXT_MAX` -/
def msgTextMax : Nat := 2048

/-- `MSGS_PER_CHANNEL` -/
def msgsPerChannel : Nat := 24

/-- `INPUT_MAX` -/
def inputMax : Nat := 220

/-- `NUM_CHANNELS` -/
def numChannels : Nat := 4

instance : NeZero msgsPerChannel := ⟨by decide⟩

instance : NeZero numChannels := ⟨by decide⟩

theorem ring_lt (i : Nat) : i % msgsPerChannel < msgsPerChannel := Nat.mod_lt _ (by decide)

/-- `Message` (`chat.c:35-41`); the two texts are buffers of 16 and of `msgTextMax` bytes. -/
structure Message where
  author : List UInt8
  color : Nat
  text : List UInt8
  minutes : Nat
  deriving DecidableEq

/-- `Channel` (`chat.c:43-57`), without what is only drawn or handed to the model. -/
structure Channel where
  bot : List UInt8
  botColor : Nat
  msgs : Fin msgsPerChannel → Message
  msgCount : Nat
  dirty : Bool
  typing : Bool

/-- A pointer to a message. -/
abbrev MsgPtr := Fin numChannels × Fin msgsPerChannel

/-- `BotJob` (`chat.c:389-394`) -/
structure BotJob where
  chan : Option (Fin numChannels)
  msg : Option MsgPtr
  prompt : List UInt8
  deriving DecidableEq

/-- What a call of `push_message` is for. -/
inductive Purpose where
  | greet
  | user
  | bot
  deriving DecidableEq

/-- The statements of `push_message` (`chat.c:378-387`). -/
inductive PushPc where
  | slot
  | author (m : Fin msgsPerChannel)
  | color (m : Fin msgsPerChannel)
  | clear (m : Fin msgsPerChannel)
  | minutes (m : Fin msgsPerChannel)
  | count (m : Fin msgsPerChannel)
  deriving DecidableEq

/-- The next statement of the thread that runs `chat_run`, with the variables `ch` and `um` or `bm`
    (`chat.c:433-465`, `chat.c:483-496`). -/
inductive UiPc where
  | outside
  | resetInput
  | testGreet
  | loop
  | testTyping (c : Fin numChannels)
  | push (k : Purpose) (c : Fin numChannels) (pc : PushPc)
  | greetText (m : Fin msgsPerChannel)
  | userText (c : Fin numChannels) (m : Fin msgsPerChannel)
  | testRunning (c : Fin numChannels) (m : Fin msgsPerChannel)
  | busyText (c : Fin numChannels) (m : Fin msgsPerChannel)
  | busyInput (c : Fin numChannels)
  | busyDirty (c : Fin numChannels)
  | setRunning (c : Fin numChannels) (m : Fin msgsPerChannel)
  | setChan (c : Fin numChannels) (m : Fin msgsPerChannel)
  | setMsg (c : Fin numChannels) (m : Fin msgsPerChannel)
  | setPrompt (c : Fin numChannels) (m : Fin msgsPerChannel)
  | setTyping (c : Fin numChannels) (m : Fin msgsPerChannel)
  | setDirty (c : Fin numChannels) (m : Fin msgsPerChannel)
  | resetSent (c : Fin numChannels) (m : Fin msgsPerChannel)
  | create (c : Fin numChannels) (m : Fin msgsPerChannel)
  | leave
  deriving DecidableEq

/-- The next statement of `bot_worker`, with the variable `ch`, or of `bot_emit` under it
    (`chat.c:399-431`). -/
inductive WorkerPc where
  | start
  | loadChan
  | generate (c : Fin numChannels)
  | emitLen (c : Fin numChannels) (piece : List UInt8)
  | emitCopy (c : Fin numChannels) (piece : List UInt8) (len : Nat)
  | emitDirty (c : Fin numChannels)
  | failText (c : Fin numChannels) (text : List UInt8)
  | testEmpty (c : Fin numChannels)
  | emptyText (c : Fin numChannels)
  | clearTyping (c : Fin numChannels)
  | setDirty (c : Fin numChannels)
  | clearRunning
  | done
  deriving DecidableEq

/-- A worker; `mine` is the message that it was created for. -/
structure Worker where
  pc : WorkerPc
  mine : MsgPtr
  deriving DecidableEq

structure ChatState where
  channels : Fin numChannels → Channel
  currentChan : Fin numChannels
  input : List UInt8
  job : BotJob
  botRunning : Bool
  ui : UiPc
  workers : List Worker

/-- A key that `chat_run` acts on (`chat.c:507-541`). -/
inductive Key where
  | escape
  | tab
  | enter
  | backspace
  | char (b : UInt8)

/-- A statement of the thread of `chat_run` at this time, or a choice: `chat_run` is called, a key is
    polled, the channel is redrawn. A statement of a worker, or a choice of the model: it emits a
    piece or ends with a result. -/
inductive ChatEvent where
  | run
  | key (k : Key)
  | redraw
  | ui (ticks : Nat)
  | worker (i : Nat)
  | emit (i : Nat) (piece : List UInt8)
  | finish (i : Nat) (n : Int)

/-! ## Strings -/

/-- A string literal. -/
def ascii (s : String) : List UInt8 := s.toList.map fun c => UInt8.ofNat c.toNat

def strlen (b : List UInt8) : Nat := (b.takeWhile (· ≠ 0)).length

/-- `strlcpy` (`string.c:53-63`) into a buffer. -/
def strlcpy (dst src : List UInt8) (size : Nat) : List UInt8 :=
  let n := if strlen src < size - 1 then strlen src else size - 1
  src.take n ++ 0 :: dst.drop (n + 1)

/-! ## Writing -/

/-- Change a channel. -/
def ChatState.modify (s : ChatState) (c : Fin numChannels) (f : Channel → Channel) : ChatState :=
  { s with channels := Function.update s.channels c (f (s.channels c)) }

def ChatState.message (s : ChatState) (p : MsgPtr) : Message := (s.channels p.1).msgs p.2

/-- Change a message. -/
def ChatState.modifyMsg (s : ChatState) (p : MsgPtr) (f : Message → Message) : ChatState :=
  s.modify p.1 fun ch => { ch with msgs := Function.update ch.msgs p.2 (f (ch.msgs p.2)) }

/-- `strlcpy(msg->text, src, MSG_TEXT_MAX)` -/
def ChatState.setText (s : ChatState) (p : MsgPtr) (src : List UInt8) : ChatState :=
  s.modifyMsg p fun m => { m with text := strlcpy m.text src msgTextMax }

def ChatState.setTyping (s : ChatState) (c : Fin numChannels) (b : Bool) : ChatState :=
  s.modify c fun ch => { ch with typing := b }

def ChatState.setDirty (s : ChatState) (c : Fin numChannels) (b : Bool) : ChatState :=
  s.modify c fun ch => { ch with dirty := b }

/-- `ch->msg_count++` -/
def ChatState.countUp (s : ChatState) (c : Fin numChannels) : ChatState :=
  s.modify c fun ch => { ch with msgCount := ch.msgCount + 1 }

/-! ## The thread of `chat_run` -/

def Purpose.author (k : Purpose) (ch : Channel) : List UInt8 :=
  match k with
  | .user => ascii "you"
  | .greet | .bot => ch.bot

def Purpose.color (k : Purpose) (ch : Channel) : Nat :=
  match k with
  | .user => 0x5865F2
  | .greet | .bot => ch.botColor

/-- The statement behind a call of `push_message` that has returned `m`. -/
def Purpose.next (k : Purpose) (c : Fin numChannels) (m : Fin msgsPerChannel) : UiPc :=
  match k with
  | .greet => .greetText m
  | .user => .userText c m
  | .bot => .testRunning c m

/-- One statement of `push_message`. -/
def ChatState.pushStep (s : ChatState) (ticks : Nat) (k : Purpose) (c : Fin numChannels) :
    PushPc → Option ChatState
  | .slot => some { s with
      ui := .push k c (.author ⟨(s.channels c).msgCount % msgsPerChannel, ring_lt _⟩) }
  | .author m => some { s.modifyMsg (c, m) fun msg =>
      { msg with author := strlcpy msg.author (k.author (s.channels c)) 16 } with
      ui := .push k c (.color m) }
  | .color m => some { s.modifyMsg (c, m) fun msg =>
      { msg with color := k.color (s.channels c) } with ui := .push k c (.clear m) }
  | .clear m => some { s.modifyMsg (c, m) fun msg =>
      { msg with text := 0 :: msg.text.drop 1 } with ui := .push k c (.minutes m) }
  | .minutes m => some { s.modifyMsg (c, m) fun msg =>
      { msg with minutes := ticks / 60000 } with ui := .push k c (.count m) }
  | .count m =>
    if (s.channels c).msgCount + 1 = 2 ^ 31 then none
    else some { s.countUp c with ui := k.next c m }

/-- One statement of `chat_run` or `send_message`. -/
def ChatState.uiStep (s : ChatState) (ticks : Nat) : Option ChatState :=
  match s.ui with
  | .outside | .loop => none
  | .resetInput => some { s with input := [], ui := .testGreet }
  | .testGreet => some { s with
      ui := if (s.channels 0).msgCount = 0 then .push .greet 0 .slot else .loop }
  | .testTyping c => some { s with
      ui := if s.input = [] ∨ (s.channels c).typing = true then .loop else .push .user c .slot }
  | .push k c pc => s.pushStep ticks k c pc
  | .greetText m => some { s.setText (0, m) (ascii
      ("hey! type the start of a story and i'll finish it. i'm a 15M-param TinyStories model " ++
        "running inside the kernel, be gentle")) with ui := .loop }
  | .userText c m => some { s.setText (c, m) s.input with ui := .push .bot c .slot }
  | .testRunning c m => some { s with
      ui := if s.botRunning = true then .busyText c m else .setRunning c m }
  | .busyText c m => some { s.setText (c, m)
      (ascii "(busy writing in another channel, give me a sec)") with ui := .busyInput c }
  | .busyInput c => some { s with input := [], ui := .busyDirty c }
  | .busyDirty c => some { s.setDirty c true with ui := .loop }
  | .setRunning c m => some { s with botRunning := true, ui := .setChan c m }
  | .setChan c m => some { s with job := { s.job with chan := some c }, ui := .setMsg c m }
  | .setMsg c m => some { s with job := { s.job with msg := some (c, m) }, ui := .setPrompt c m }
  | .setPrompt c m => some { s with
      job := { s.job with prompt := strlcpy s.job.prompt s.input inputMax }, ui := .setTyping c m }
  | .setTyping c m => some { s.setTyping c true with ui := .setDirty c m }
  | .setDirty c m => some { s.setDirty c true with ui := .resetSent c m }
  | .resetSent c m => some { s with input := [], ui := .create c m }
  | .create c m => some { s with workers := s.workers ++ [⟨.start, (c, m)⟩], ui := .loop }
  | .leave => some { s.setDirty s.currentChan false with ui := .outside }

/-- A key (`chat.c:507-541`). -/
def ChatState.keyStep (s : ChatState) : Key → ChatState
  | .escape => { s with ui := .leave }
  | .tab => { s with currentChan := s.currentChan + 1 }
  | .enter => { s with ui := .testTyping s.currentChan }
  | .backspace => { s with input := s.input.dropLast }
  | .char b =>
    if 32 ≤ b ∧ b < 127 ∧ s.input.length < inputMax - 1 then { s with input := s.input ++ [b] } else s

/-! ## A worker -/

/-- One statement of `bot_worker` or `bot_emit`. In `llm_generate` it does nothing itself. -/
def ChatState.workerStep (s : ChatState) : WorkerPc → Option (ChatState × WorkerPc)
  | .start => some (s, .loadChan)
  | .loadChan => do
    let c ← s.job.chan
    return (s, .generate c)
  | .generate _ => none
  | .emitLen c piece => do
    let p ← s.job.msg
    return (s, .emitCopy c piece (strlen (s.message p).text))
  | .emitCopy c piece len =>
    let add := strlen piece
    if len + add < msgTextMax - 1 then do
      let p ← s.job.msg
      return (s.modifyMsg p fun m => { m with
        text := m.text.take len ++ piece.take add ++ 0 :: m.text.drop (len + add + 1) }, .emitDirty c)
    else some (s, .generate c)
  | .emitDirty c => do
    let c' ← s.job.chan
    return (s.setDirty c' true, .generate c)
  | .failText c text => do
    let p ← s.job.msg
    return (s.setText p text, .testEmpty c)
  | .testEmpty c => do
    let p ← s.job.msg
    return (s, if (s.message p).text.head? = some 0 then .emptyText c else .clearTyping c)
  | .emptyText c => do
    let p ← s.job.msg
    return (s.setText p (ascii "(the model had nothing to say)"), .clearTyping c)
  | .clearTyping c => some (s.setTyping c false, .setDirty c)
  | .setDirty c => some (s.setDirty c true, .clearRunning)
  | .clearRunning => some ({ s with botRunning := false }, .done)
  | .done => none

/-- `LLM_ERR_BUSY` -/
def llmErrBusy : Int := -4

/-- What a worker does with the result of `llm_generate` (`chat.c:419-424`). -/
def afterGenerate (c : Fin numChannels) (n : Int) : WorkerPc :=
  if n < 0 then
    .failText c (if n = llmErrBusy then ascii "(one story at a time! someone else is generating)"
      else ascii "(model unavailable - was the ISO built with models?)")
  else .testEmpty c

/-- Worker `i` goes on. -/
def ChatState.putWorker (s : ChatState) (i : Nat) (w : Worker) (pc : WorkerPc) : ChatState :=
  { s with workers := s.workers.set i { w with pc := pc } }

/-- One step of the system. -/
def ChatState.step (s : ChatState) : ChatEvent → Option ChatState
  | .run => if s.ui = .outside then some { s with ui := .resetInput } else none
  | .key k => if s.ui = .loop then some (s.keyStep k) else none
  | .redraw => if s.ui = .loop then some (s.setDirty s.currentChan false) else none
  | .ui ticks => s.uiStep ticks
  | .worker i => do
    let w ← s.workers[i]?
    let (t, pc) ← s.workerStep w.pc
    return t.putWorker i w pc
  | .emit i piece => do
    let w ← s.workers[i]?
    match w.pc with
    | .generate c => return s.putWorker i w (.emitLen c piece)
    | _ => none
  | .finish i n => do
    let w ← s.workers[i]?
    match w.pc with
    | .generate c => return s.putWorker i w (afterGenerate c n)
    | _ => none

end ChocoOs.Chat
