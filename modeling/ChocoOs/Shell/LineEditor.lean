import ChocoOs.Keyboard.Queue
import ChocoOs.Lib.CString
import ChocoOs.Lib.History
import ChocoOs.Shell.Commands
import ChocoOs.Term.Terminal

/-!
# The line editor of the shell

The loop of `shell_init` over the key events, with the line in `buf` and the history. A round also says
what it asks of the terminal. `none` is an access outside an array.
-/

namespace ChocoOs.Shell
open ProgLib Keyboard Term

/-- `HISTORY_MAX` (`shell.c:28`). -/
def historyMax : Nat := 16

/-! ## Arrays -/

/-- `a[i] = x` -/
def poke {α : Type} (a : List α) (i : Int) (x : α) : Option (List α) :=
  if 0 ≤ i ∧ i < a.length then some (a.set i.toNat x) else none

/-- `a[i]` -/
def peek {α : Type} (a : List α) (i : Int) : Option α := if 0 ≤ i then a[i.toNat]? else none

/-- The characters before the terminator. -/
def rowText (a : List UInt8) : List UInt8 := a.takeWhile (· != 0)

/-- The C string that an array holds. -/
def readText (a : List UInt8) : Option (List UInt8) := if 0 ∈ a then some (rowText a) else none

/-- A C string is copied to an array. -/
def writeText (a text : List UInt8) : Option (List UInt8) :=
  if text.length < a.length then some (text ++ 0 :: a.drop (text.length + 1)) else none

/-! ## The editor -/

/-- The variables of `shell_init` and the history (`shell.c:31-32`, `shell.c:654-656`). -/
structure Editor where
  buf : List UInt8
  len : Int
  histPos : Int
  history : List (List UInt8)
  historyCount : Int

/-- A call of the terminal, or the command that gets a line. -/
inductive Output where
  | clear
  | print (text : List UInt8)
  | colored (text : List UInt8) (fg : UInt32)
  | echo (ch : UInt8)
  | command (line : List UInt8)
  deriving DecidableEq

/-- `prompt` (`shell.c:36-44`), given the path of `cwd`. -/
def prompt (path : List UInt8) : List Output :=
  [.colored [99, 104, 111, 99, 111] colorMagenta, .colored [space] colorWhite, .colored path colorCyan,
    .colored [space, 62, space] colorWhite]

/-- `redraw_line` (`shell.c:640-650`) -/
def redrawLine (text : List UInt8) (oldLen : Int) : List Output :=
  let rest := (oldLen - text.length).toNat
  List.replicate oldLen.toNat (.print [8]) ++ .print text :: List.replicate rest (.print [space]) ++
    List.replicate rest (.print [8])

/-- `strcpy(history[dst], history[src])` -/
def copyRow (history : List (List UInt8)) (dst src : Int) : Option (List (List UInt8)) := do
  let text ← readText (← peek history src)
  poke history dst (← writeText (← peek history dst) text)

/-- The loop that gives up the oldest entry (`shell.c:740-741`). -/
def shiftHistory (history : List (List UInt8)) : Option (List (List UInt8)) :=
  (List.range' 1 (historyMax - 1)).foldlM (fun h (i : Nat) => copyRow h ((i : Int) - 1) i) history

namespace Editor

/-- The line so far. -/
def line (e : Editor) : List UInt8 := e.buf.take e.len.toNat

/-- The entries of the history, the oldest first. -/
def entries (e : Editor) : List (List UInt8) :=
  (e.history.take e.historyCount.toNat).map rowText

/-- An arrow key (`shell.c:688-706`). -/
def arrow (e : Editor) (code : KeyCode) : Option (Editor × List Output) := do
  if e.historyCount = 0 then return (e, [])
  let histPos :=
    if code = .keyUp ∧ e.histPos + 1 < e.historyCount then e.histPos + 1
    else if code = .keyDown ∧ 0 ≤ e.histPos then e.histPos - 1
    else e.histPos
  let buf ← if histPos < 0 then poke e.buf 0 0 else do
    let text ← readText (← peek e.history (e.historyCount - 1 - histPos))
    writeText e.buf (text.take (lineMax - 1))
  let text ← readText buf
  return ({ e with buf := buf, len := text.length, histPos := histPos }, redrawLine text e.len)

/-- The newest entry of the history is the same line (`shell.c:735-736`). -/
def repeats (e : Editor) (text : List UInt8) : Option Bool :=
  if e.historyCount = 0 then some false else do
    let newest ← readText (← peek e.history (e.historyCount - 1))
    return strcmp newest text = 0

/-- A full history gives up its oldest entry (`shell.c:738-743`). -/
def makeRoom (e : Editor) : Option Editor :=
  if e.historyCount = historyMax then do
    return { e with history := ← shiftHistory e.history, historyCount := e.historyCount - 1 }
  else some e

/-- The line in `buf` goes to the history (`shell.c:735-745`). -/
def remember (e : Editor) (text : List UInt8) : Option Editor := do
  if ← e.repeats text then return e
  else do
    let e ← e.makeRoom
    let row ← writeText (← peek e.history e.historyCount) text
    return { e with
      history := ← poke e.history e.historyCount row
      historyCount := e.historyCount + 1 }

/-- The enter key (`shell.c:728-753`). The command leaves something else in `buf`. -/
def submit (e : Editor) (left path : List UInt8) : Option (Editor × List Output) := do
  let e := { e with buf := ← poke e.buf e.len 0 }
  if 0 < e.len then do
    let text ← readText e.buf
    let e ← e.remember text
    return ({ e with buf := left, len := 0, histPos := -1 }, .print [10] :: .command text :: prompt path)
  else return ({ e with len := 0, histPos := -1 }, .print [10] :: prompt path)

/-- One round of the loop of `shell_init` (`shell.c:684-769`). `left` is what a command leaves in the line,
    `path` the path that the next prompt shows. -/
def keyRound (e : Editor) (ev : KeyEvent) (left path : List UInt8) : Option (Editor × List Output) :=
  if ev.code = .keyUp ∨ ev.code = .keyDown then e.arrow ev.code
  else if ev.code ≠ .keyChar then some (e, [])
  else if ev.ctrl ∧ (ev.ch = 108 ∨ ev.ch = 76) then do
    let buf ← poke e.buf e.len 0
    let text ← readText buf
    return ({ e with buf := buf }, .clear :: prompt path ++ [.print text])
  else if ev.ctrl ∧ (ev.ch = 99 ∨ ev.ch = 67) then
    some ({ e with len := 0, histPos := -1 }, .print [94, 67, 10] :: prompt path)
  else if ev.ctrl then some (e, [])
  else if ev.ch = 10 then e.submit left path
  else if ev.ch = 8 then
    if 0 < e.len then some ({ e with len := e.len - 1 }, [.echo 8]) else some (e, [])
  else if e.len < (lineMax : Int) - 1 ∧ 32 ≤ ev.ch ∧ ev.ch < 127 then do
    return ({ e with buf := ← poke e.buf e.len ev.ch, len := e.len + 1 }, [.echo ev.ch])
  else some (e, [])

end Editor

end ChocoOs.Shell
