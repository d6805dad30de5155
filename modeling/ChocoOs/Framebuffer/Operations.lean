import Mathlib
import ChocoOs.Lib.Word

/-!
# The framebuffer

Drawing with and without a back buffer. Memory is addressed in words of 32 bits; `none` stands for a
write outside the framebuffer, or across two words.
-/

namespace ChocoOs.Framebuffer
open ProgLib

/-- The framebuffer that the boot loader has set up, and the variables of `framebuffer.c`
    (`framebuffer.c:12-19`). -/
structure Screen where
  width : Nat
  height : Nat
  pitch : Nat
  bpp : Nat
  front : Nat → UInt32
  backbuffer : Option (Nat → UInt32)
  useDoubleBuffer : Bool
  backWidth : Nat
  backHeight : Nat

/-- `PSF_font` (`framebuffer.c:127-137`) and the bytes of the file. The mask of a row is a positive
    `int`. -/
structure Font where
  headersize : Nat
  numglyph : Nat
  bytesperglyph : Nat
  height : Nat
  width : Nat
  width_lt : width < 32
  data : Nat → UInt8

/-- `framebuffer_set_double_buffer` (`framebuffer.c:21-35`); `fresh` is what `malloc` returns. -/
def Screen.setDoubleBuffer (s : Screen) (enabled : Bool) (fresh : Option (Nat → UInt32)) : Screen :=
  let s := { s with useDoubleBuffer := enabled }
  if enabled = true ∧ s.backbuffer.isNone = true then
    { s with backWidth := s.width, backHeight := s.height, backbuffer := fresh }
  else if enabled = false ∧ s.backbuffer.isSome = true then { s with backbuffer := none }
  else s

/-- `framebuffer->pitch / (framebuffer->bpp / 8)` -/
def Screen.pitchPixels (s : Screen) : Nat := s.pitch / (s.bpp / 8)

/-- Write a word at a distance in bytes from the start of the framebuffer. -/
def Screen.poke (s : Screen) (off : Int) (color : UInt32) : Option Screen :=
  if 0 ≤ off ∧ off + 4 ≤ s.pitch * s.height ∧ off % 4 = 0 then
    some { s with front := Function.update s.front (off / 4).toNat color }
  else none

/-- The places of two nested loops. -/
def grid (outer inner : List Nat) : List (Nat × Nat) :=
  outer.flatMap fun i => inner.map fun j => (i, j)

/-- `framebuffer_swap` (`framebuffer.c:37-51`) -/
def Screen.swap (s : Screen) : Option Screen :=
  match s.backbuffer with
  | none => some s
  | some back =>
    (grid (List.range (min s.height s.backHeight)) (List.range (min s.width s.backWidth))).foldlM
      (fun s p => s.poke (4 * (p.1 * s.pitchPixels + p.2 : Nat)) (back (p.1 * s.backWidth + p.2))) s

/-- `framebuffer_draw_pixel` (`framebuffer.c:53-71`) -/
def Screen.drawPixel (s : Screen) (x y : Nat) (color : UInt32) : Option Screen :=
  if s.width ≤ x ∨ s.height ≤ y then some s
  else if s.useDoubleBuffer = true ∧ s.backbuffer.isSome = true ∧ x < s.backWidth ∧
      y < s.backHeight then
    some { s with
      backbuffer := s.backbuffer.map fun b => Function.update b (y * s.backWidth + x) color }
  else s.poke (4 * (y * s.pitchPixels + x : Nat)) color

/-- `framebuffer_clear` (`framebuffer.c:83-92`) -/
def Screen.clear (s : Screen) (color : UInt32) : Option Screen :=
  (grid (List.range s.height) (List.range s.width)).foldlM (fun s p => s.drawPixel p.2 p.1 color) s

/-- The values of a loop `for (i = a; i < a + n; i++)` over numbers of 64 bits. -/
def span (a n : Nat) : List Nat := List.range' a ((a + n) % 2 ^ 64 - a)

/-- `framebuffer_draw_rect` (`framebuffer.c:230-239`) -/
def Screen.drawRect (s : Screen) (x y width height : Nat) (color : UInt32) : Option Screen :=
  (grid (span x width) (span y height)).foldlM (fun s p => s.drawPixel p.1 p.2 color) s

/-- A number as an `int`. -/
def toInt32 (v : Int) : Int := (v + 2 ^ 31) % 2 ^ 32 - 2 ^ 31

/-- The four bytes from a place of the font on. -/
def Font.word (font : Font) (i : Nat) : Nat :=
  leNat [font.data i, font.data (i + 1), font.data (i + 2), font.data (i + 3)]

/-- Whether a pixel of a glyph is set (`framebuffer.c:168-171`, `framebuffer.c:187`). -/
def Font.pixel (font : Font) (c x y : Nat) : Bool :=
  let glyph := font.headersize + (if 0 < c ∧ c < font.numglyph then c else 0) * font.bytesperglyph
  (font.word (glyph + y * ((font.width + 7) / 8))).testBit (font.width - 1 - x)

/-- The distance of the upper left corner of a character (`framebuffer.c:174-176`). -/
def charOffset (pitch : Nat) (font : Font) (cx cy : Int) : Int :=
  toInt32 ((cy * font.height * pitch) % 2 ^ 32 + (cx * font.width) % 2 ^ 32 * 4)

/-- `framebuffer_put_char` (`framebuffer.c:146-196`); nothing ever sets `unicode`. -/
def Screen.putChar (s : Screen) (font : Font) (c : Nat) (cx cy : Int) (fg bg : UInt32) :
    Option Screen :=
  (grid (List.range font.height) (List.range font.width)).foldlM
    (fun s p => s.poke (charOffset s.pitch font cx cy + p.1 * toInt32 s.pitch + 4 * p.2)
      (if font.pixel c p.2 p.1 = true then fg else bg)) s

/-- A `char` as an `unsigned short`. -/
def charCode (b : UInt8) : Nat := if 128 ≤ b then 0xFF00 + b.toNat else b.toNat

/-- `framebuffer_put_string` (`framebuffer.c:198-206`) -/
def Screen.putString (s : Screen) (font : Font) : List UInt8 → (cx cy : Int) → (fg bg : UInt32) →
    Option Screen
  | [], _, _, _, _ => some s
  | b :: str, cx, cy, fg, bg =>
    if b = 0 then some s
    else do
      let s ← s.putChar font (charCode b) cx cy fg bg
      s.putString font str (cx + 1) cy fg bg

/-- A drawing call. -/
inductive Draw where
  | clear (color : UInt32)
  | rect (x y width height : Nat) (color : UInt32)
  | string (str : List UInt8) (cx cy : Int) (fg bg : UInt32)

def Screen.draw (s : Screen) (font : Font) : Draw → Option Screen
  | .clear color => s.clear color
  | .rect x y width height color => s.drawRect x y width height color
  | .string str cx cy fg bg => s.putString font str cx cy fg bg

def Screen.drawAll (s : Screen) (font : Font) (calls : List Draw) : Option Screen :=
  calls.foldlM (fun s d => s.draw font d) s

/-- The pixel that is seen. -/
def Screen.visible (s : Screen) (x y : Nat) : UInt32 := s.front (y * s.pitchPixels + x)

end ChocoOs.Framebuffer
