import ChocoOs.Lib.Reading
import ChocoOs.Chat.Operations

/-!
# Drawing the chat

`draw_chat` wraps the messages of the current channel into lines and paints the last of them. A bot
may be writing to a message meanwhile, so that every access to memory is a step of its own. `fuel`
bounds the turns of each loop: what the code does in finite time, it does here under every bound
that is large enough. An access outside a text, and a negative length, have no result.
-/

namespace ChocoOs.Chat
open ProgLib

/-- `MAX_LINES` -/
def maxLines : Nat := 512

/-- `sizeof(L->text)` -/
def lineTextSize : Nat := 200

/-- `COL_TEXT` -/
def colText : Nat := 0xDCDDDE

/-- What `draw_chat` reads of a channel; a text byte by byte. -/
inductive Cell where
  | msgCount
  | author (m : Fin msgsPerChannel)
  | color (m : Fin msgsPerChannel)
  | minutes (m : Fin msgsPerChannel)
  | text (m : Fin msgsPerChannel) (p : Int)

/-- The values of a cell. There is no byte outside a text. -/
abbrev Cell.Val : Cell → Type
  | .msgCount | .color _ | .minutes _ => Nat
  | .author _ => List UInt8
  | .text _ _ => Option UInt8

def Channel.cell (ch : Channel) : ∀ c : Cell, c.Val
  | .msgCount => ch.msgCount
  | .author m => (ch.msgs m).author
  | .color m => (ch.msgs m).color
  | .minutes m => (ch.msgs m).minutes
  | .text m p => if 0 ≤ p then (ch.msgs m).text[p.toNat]? else none

/-- `WrapLine` (`chat.c:195-202`). A line of a body has neither a colour of the author nor
    minutes. -/
structure WrapLine where
  text : List UInt8
  fg : Nat
  authorLine : Bool
  authorColor : Nat
  minutes : Nat

/-- What is painted into one row of the panel; a time is in hours and minutes. -/
inductive Row where
  | blank
  | author (text : List UInt8) (color : Nat) (time : Nat × Nat)
  | body (text : List UInt8) (fg : Nat)
  deriving DecidableEq

abbrev Draw (α : Type) := Reading Cell.Val α

/-! ## Strings -/

section strings

variable (m : Fin msgsPerChannel)

/-- `*p` -/
def byte (p : Int) : Draw UInt8 :=
  (Reading.get (Cell.text m p)).bind fun
    | some b => .done b
    | none => .stuck

/-- `while (*p == ' ') p++;` -/
def skipSpaces : Nat → Int → Draw Int
  | 0, _ => .stuck
  | n + 1, p => do
    if (← byte m p) = 32 then skipSpaces n (p + 1) else return p

/-- `strchr(p, c)` (`string.c:73-82`) -/
def strchrFrom (c : UInt8) : Nat → Int → Draw (Option Int)
  | 0, _ => .stuck
  | n + 1, p => do
    if (← byte m p) = c then return some p
    if (← byte m p) = 0 then return none
    strchrFrom c n (p + 1)

/-- `strlen(p)` -/
def strlenFrom : Nat → Int → Draw Int
  | 0, _ => .stuck
  | n + 1, p => do
    if (← byte m p) = 0 then return 0
    return (← strlenFrom n (p + 1)) + 1

/-- `while (bs > 0 && p[bs] != ' ') bs--;` -/
def backUp (p : Int) : Nat → Int → Draw Int
  | 0, _ => .stuck
  | n + 1, bs => do
    if bs ≤ 0 then return bs
    if (← byte m (p + bs)) = 32 then return bs
    backUp p n (bs - 1)

/-- `memcpy(L->text, p, n)` -/
def copyBytes : Nat → Int → Draw (List UInt8)
  | 0, _ => .done []
  | n + 1, p => do
    let b ← byte m p
    return b :: (← copyBytes n (p + 1))

end strings

/-! ## Wrapping -/

section wrap

variable (fuel : Nat) (width : Int) (m : Fin msgsPerChannel)

/-- `wrap_push` (`chat.c:207-218`) -/
def wrapPush (p n : Int) (lines : List WrapLine) : Draw (List WrapLine) :=
  if maxLines ≤ lines.length then .done lines
  else
    let n := if n > lineTextSize - 1 then (lineTextSize - 1 : Int) else n
    if n < 0 then .stuck
    else do
      let text ← copyBytes m n.toNat p
      return lines ++ [⟨text, colText, false, 0, 0⟩]

/-- How many bytes go into the next line (`chat.c:244-253`). -/
def takeBytes (p avail : Int) : Draw Int := do
  let take := if avail < width then avail else width
  if take = width ∧ avail > width then
    let bs ← backUp m p fuel take
    return if bs > width.tdiv 2 then bs else take
  else return take

/-- The loop over a body (`chat.c:236-261`). -/
def wrapBody : Nat → Int → List WrapLine → Draw (List WrapLine)
  | 0, _, _ => .stuck
  | n + 1, p, lines => do
    if (← byte m p) = 0 then return lines
    let p ← skipSpaces m fuel p
    if (← byte m p) = 0 then return lines
    let nl ← strchrFrom m 10 fuel p
    let avail ← match nl with
      | some q => Reading.done (q - p)
      | none => strlenFrom m fuel p
    let take ← takeBytes fuel width m p avail
    let lines ← wrapPush m p take lines
    let p := p + take
    wrapBody n (if nl = some p then p + 1 else p) lines

/-- `wrap_message` (`chat.c:220-262`) -/
def wrapMessage (lines : List WrapLine) : Draw (List WrapLine) :=
  if maxLines ≤ lines.length then .done lines
  else do
    let author ← Reading.get (Cell.author m)
    let color ← Reading.get (Cell.color m)
    let minutes ← Reading.get (Cell.minutes m)
    wrapBody fuel width m fuel 0 (lines ++
      [⟨(author.takeWhile (· ≠ 0)).take (lineTextSize - 1), colText, true, color, minutes⟩])

end wrap

/-- The messages with the numbers `i`, …, `i + n - 1`. -/
def wrapMessages (fuel : Nat) (width : Int) : Nat → Nat → List WrapLine → Draw (List WrapLine)
  | 0, _, lines => .done lines
  | n + 1, i, lines => do
    let lines ← wrapMessage fuel width ⟨i % msgsPerChannel, ring_lt i⟩ lines
    wrapMessages fuel width n (i + 1) lines

/-! ## Painting -/

/-- How a line is painted (`chat.c:294-312`). -/
def paintLine (width : Int) (l : WrapLine) : Row :=
  let text := l.text.takeWhile (· ≠ 0)
  if l.authorLine then .author text l.authorColor (l.minutes / 60, l.minutes % 60)
  else .body (text.take width.toNat) l.fg

/-- The rows of the panel (`chat.c:280-316`). -/
def paintRows (width chatRows : Int) (lines : List WrapLine) : List Row :=
  let count : Int := lines.length
  let visible := if count < chatRows then count else chatRows
  let src := count - visible
  (List.range chatRows.toNat).map fun (i : Nat) =>
    if visible ≤ (i : Int) then .blank
    else (lines[(src + i).toNat]?).elim .blank (paintLine width)

/-- `draw_chat` (`chat.c:264-317`). Only the thread that draws writes `msg_count`. -/
def drawChat (fuel : Nat) (chatCols chatRows : Int) : Draw (List Row) := do
  let width := chatCols - 2
  let count ← Reading.get Cell.msgCount
  let start := if count > msgsPerChannel then count - msgsPerChannel else 0
  let lines ← wrapMessages fuel width (count - start) start []
  return paintRows width chatRows lines

end ChocoOs.Chat
