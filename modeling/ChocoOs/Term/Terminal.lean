import ChocoOs.Lib.Loop
import Mathlib.Algebra.Order.Ring.Int

/-!
# The terminal

`term.c`, over a screen of cells. A cell holds the character that was last put there; the line of
pixels that marks the cursor is no part of it. What goes to the serial port is left out.
-/

namespace ChocoOs.Term
open ProgLib

/-- `TERM_COLOR_BLACK` -/
def colorBlack : UInt32 := 0x00000000

/-- `TERM_COLOR_WHITE` -/
def colorWhite : UInt32 := 0x00FFFFFF

/-- `TERM_COLOR_CYAN` -/
def colorCyan : UInt32 := 0x008BE9FD

/-- `TERM_COLOR_MAGENTA` -/
def colorMagenta : UInt32 := 0x00FF79C6

structure Cell where
  ch : UInt8
  fg : UInt32
  bg : UInt32
  deriving DecidableEq

/-- The static variables of `term.c` (`term.c:8-15`) and the cells, by row and column. -/
structure Terminal where
  row : Int
  col : Int
  cols : Int
  rows : Int
  curFg : UInt32
  curBg : UInt32
  cursorVisible : Bool
  cursorDrawn : Bool
  cells : Int → Int → Cell

/-- A cell without a character, after the screen was filled with a colour. -/
def blank (color : UInt32) : Cell := ⟨32, color, color⟩

namespace Terminal

/-- `framebuffer_put_char` at a column and a row; `none` is a place outside the screen. -/
def putChar (t : Terminal) (ch : UInt8) (col row : Int) (fg bg : UInt32) : Option Terminal :=
  if 0 ≤ col ∧ col < t.cols ∧ 0 ≤ row ∧ row < t.rows then
    some { t with cells := fun r c => if r = row ∧ c = col then ⟨ch, fg, bg⟩ else t.cells r c }
  else none

/-- `draw_cursor` (`term.c:17-26`) -/
def drawCursor (t : Terminal) (on : Bool) : Terminal :=
  if !t.cursorVisible && on then t else { t with cursorDrawn := on }

/-- `term_clear` (`term.c:36-42`) -/
def clear (t : Terminal) (color : UInt32) : Terminal :=
  { t with row := 0, col := 0, cursorDrawn := false, cells := fun _ _ => blank color }

/-- `term_init` (`term.c:28-34`), given what the framebuffer makes of its size. -/
def init (cols rows : Int) : Terminal :=
  clear ⟨0, 0, cols, rows, colorWhite, colorBlack, true, false, fun _ _ => blank colorBlack⟩ colorBlack

/-- `term_set_pos` (`term.c:57-66`) -/
def setPos (t : Terminal) (c r : Int) : Terminal :=
  let t := if t.cursorDrawn then t.drawCursor false else t
  let t := if 0 ≤ c ∧ c < t.cols then { t with col := c } else t
  let t := if 0 ≤ r ∧ r < t.rows then { t with row := r } else t
  t.drawCursor true

/-- `term_set_cursor_visible` (`term.c:68-75`) -/
def setCursorVisible (t : Terminal) (visible : Bool) : Terminal :=
  let t := if !visible && t.cursorDrawn then t.drawCursor false else t
  let t := { t with cursorVisible := visible }
  if visible then t.drawCursor true else t

/-- `framebuffer_scroll_up` by the height of a row. -/
def scrollUp (t : Terminal) : Terminal :=
  { t with cells := fun r c => if r + 1 < t.rows then t.cells (r + 1) c else blank colorBlack }

/-- `newline` (`term.c:77-86`) -/
def newline (t : Terminal) : Terminal :=
  let t := { t with col := 0, row := t.row + 1 }
  if t.rows ≤ t.row then { t.scrollUp with row := t.rows - 1 } else t

/-- The switch of `term_print_char` for all characters but `\t` (`term.c:97-124`). -/
def printSwitch (t : Terminal) (ch : UInt8) (fg bg : UInt32) : Option Terminal :=
  if ch = 10 then some t.newline
  else if ch = 13 then some { t with col := 0 }
  else if ch = 8 then
    if 0 < t.col then { t with col := t.col - 1 }.putChar 32 (t.col - 1) t.row fg bg else some t
  else do
    let t ← t.putChar ch t.col t.row fg bg
    let t := { t with col := t.col + 1 }
    return if t.cols ≤ t.col then t.newline else t

/-- `term_print_char` (`term.c:88-127`) of a character that is no `\t`. -/
def printPlain (t : Terminal) (ch : UInt8) (fg bg : UInt32) : Option Terminal :=
  let t := if t.cursorDrawn then t.drawCursor false else t
  (t.printSwitch ch fg bg).map fun t => t.drawCursor true

/-- One round of the loop for `\t` (`term.c:105-108`). -/
def tabRound (fg bg : UInt32) (t : Terminal) : Option (LoopStep Terminal Terminal) :=
  (t.printPlain 32 fg bg).map fun t => if t.col % 4 ≠ 0 then .next t else .done t

/-- `term_print_char` (`term.c:88-127`). The loop for `\t` goes round at most four times. -/
def printChar (t : Terminal) (ch : UInt8) (fg bg : UInt32) : Option Terminal :=
  if ch = 9 then loop (tabRound fg bg) 4 (if t.cursorDrawn then t.drawCursor false else t)
  else t.printPlain ch fg bg

/-- `term_print_with_color` (`term.c:129-133`) -/
def printWithColor (t : Terminal) (str : List UInt8) (fg bg : UInt32) : Option Terminal :=
  str.foldlM (fun t ch => t.printChar ch fg bg) t

/-- `term_print` (`term.c:135-138`) -/
def print (t : Terminal) (str : List UInt8) : Option Terminal := t.printWithColor str t.curFg t.curBg

end Terminal

end ChocoOs.Term
