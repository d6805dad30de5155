import ChocoOs.Term.Terminal
import Mathlib.Data.List.GetD

/-!
# The cursor among the cells

The cells of the screen are read row by row. Printing a character fills the cell of the cursor and moves
it to the next one; `\b` takes it back, but not over the beginning of a row.
-/

namespace ChocoOs.Term
open ProgLib

/-- A character that stands for itself. -/
def Prints (ch : UInt8) : Prop := ch ≠ 8 ∧ ch ≠ 9 ∧ ch ≠ 10 ∧ ch ≠ 13

instance (ch : UInt8) : Decidable (Prints ch) := inferInstanceAs (Decidable (_ ∧ _))

theorem prints_of_all {text : List UInt8} (h : (text.all fun ch => decide (Prints ch)) = true) :
    ∀ ch ∈ text, Prints ch := fun ch hch => of_decide_eq_true (List.all_eq_true.mp h ch hch)

namespace Terminal

/-- The cursor is on the screen. -/
def InScreen (t : Terminal) : Prop := 0 ≤ t.col ∧ t.col < t.cols ∧ 0 ≤ t.row ∧ t.row < t.rows

instance (t : Terminal) : Decidable t.InScreen := inferInstanceAs (Decidable (_ ∧ _))

/-- The number of the cell with the cursor. -/
def pos (t : Terminal) : Int := t.row * t.cols + t.col

def cellAt (t : Terminal) (p : Int) : Cell := t.cells (p / t.cols) (p % t.cols)

/-- Printing changes neither the size nor the colours. -/
structure SameSize (t t' : Terminal) : Prop where
  cols : t'.cols = t.cols
  rows : t'.rows = t.rows
  curFg : t'.curFg = t.curFg
  curBg : t'.curBg = t.curBg

theorem SameSize.refl (t : Terminal) : t.SameSize t := ⟨rfl, rfl, rfl, rfl⟩

theorem SameSize.trans {t t' t'' : Terminal} (h : t.SameSize t') (h' : t'.SameSize t'') : t.SameSize t'' :=
  ⟨h'.cols.trans h.cols, h'.rows.trans h.rows, h'.curFg.trans h.curFg, h'.curBg.trans h.curBg⟩

variable {t : Terminal}

/-! ## Places -/

/-- A place is a row and a column. -/
theorem place_iff {cols r c : Int} (h : 0 ≤ c ∧ c < cols) (p : Int) :
    p / cols = r ∧ p % cols = c ↔ p = r * cols + c := by
  have hne : cols ≠ 0 := by omega
  constructor
  · rintro ⟨rfl, rfl⟩
    rw [Int.mul_comm, Int.mul_ediv_add_emod]
  · rintro rfl
    constructor
    · rw [Int.add_comm, Int.add_mul_ediv_right _ _ hne, Int.ediv_eq_zero_of_lt h.1 h.2, Int.zero_add]
    · rw [Int.add_comm, Int.add_mul_emod_self_right, Int.emod_eq_of_lt h.1 h.2]

theorem InScreen.place_iff (h : t.InScreen) (p : Int) : p / t.cols = t.row ∧ p % t.cols = t.col ↔ p = t.pos :=
  Terminal.place_iff ⟨h.1, h.2.1⟩ p

theorem InScreen.col_eq (h : t.InScreen) : t.col = t.pos % t.cols := ((h.place_iff t.pos).mpr rfl).2.symm

/-- The rows above the last one. -/
theorem InScreen.row_lt (h : t.InScreen) (hpos : t.pos < (t.rows - 1) * t.cols) : t.row + 1 < t.rows := by
  have hcols : 0 ≤ t.cols := by
    have h1 := h.1
    have h2 := h.2.1
    omega
  have hlt : t.row * t.cols < (t.rows - 1) * t.cols := by
    have hcol := h.1
    rw [pos] at hpos
    omega
  have hrow := Int.lt_of_mul_lt_mul_right hlt hcols
  omega

/-! ## One character -/

theorem drawCursor_eq (t : Terminal) (on : Bool) : ∃ b, t.drawCursor on = { t with cursorDrawn := b } := by
  rw [drawCursor]
  split
  · exact ⟨t.cursorDrawn, rfl⟩
  · exact ⟨on, rfl⟩

theorem hideCursor_eq (t : Terminal) :
    (if t.cursorDrawn then t.drawCursor false else t) = { t with cursorDrawn := false } := by
  split
  · rw [drawCursor, Bool.and_false]
    rfl
  · next h =>
    rw [Bool.not_eq_true] at h
    rw [← h]

/-- The cursor does not matter to what is printed. -/
theorem printPlain_of_switch {t t' : Terminal} {ch : UInt8} {fg bg : UInt32}
    (h : { t with cursorDrawn := false }.printSwitch ch fg bg = some t') :
    ∃ b, t.printPlain ch fg bg = some { t' with cursorDrawn := b } := by
  obtain ⟨b, hb⟩ := drawCursor_eq t' true
  refine ⟨b, ?_⟩
  rw [printPlain, hideCursor_eq, ← hb]
  exact congrArg (Option.map fun t => t.drawCursor true) h

/-- The cell of the cursor is filled. -/
def fill (t : Terminal) (x : Cell) : Terminal :=
  { t with cells := fun r c => if r = t.row ∧ c = t.col then x else t.cells r c }

/-- The cursor goes one column on, over the right margin. -/
def right (t : Terminal) : Terminal :=
  let t := { t with col := t.col + 1 }
  if t.cols ≤ t.col then t.newline else t

/-- The cursor goes one column back. -/
def left (t : Terminal) : Terminal := { t with col := t.col - 1 }

theorem cellAt_fill (h : t.InScreen) (x : Cell) (p : Int) :
    (t.fill x).cellAt p = if p = t.pos then x else t.cellAt p := by
  rw [← if_congr (h.place_iff p) rfl rfl]
  rfl

theorem putChar_eq (h : t.InScreen) (ch : UInt8) (fg bg : UInt32) :
    t.putChar ch t.col t.row fg bg = some (t.fill ⟨ch, fg, bg⟩) := if_pos h

theorem printSwitch_text (h : t.InScreen) {ch : UInt8} (h8 : ch ≠ 8) (h10 : ch ≠ 10) (h13 : ch ≠ 13)
    (fg bg : UInt32) : t.printSwitch ch fg bg = some (t.fill ⟨ch, fg, bg⟩).right := by
  rw [printSwitch, if_neg h10, if_neg h13, if_neg h8, putChar_eq h]
  rfl

theorem InScreen.left (h : t.InScreen) (hcol : 0 < t.col) : t.left.InScreen := by
  refine ⟨?_, ?_, h.2.2⟩
  · show 0 ≤ t.col - 1
    omega
  · show t.col - 1 < t.cols
    have hcols := h.2.1
    omega

theorem printSwitch_back (h : t.InScreen) (hcol : 0 < t.col) (fg bg : UInt32) :
    t.printSwitch 8 fg bg = some (t.left.fill ⟨32, fg, bg⟩) := by
  rw [printSwitch, if_neg (by decide), if_neg (by decide), if_pos rfl, if_pos hcol]
  exact putChar_eq (h.left hcol) 32 fg bg

theorem left_pos (t : Terminal) : t.left.pos = t.pos - 1 := by
  show t.row * t.cols + (t.col - 1) = t.row * t.cols + t.col - 1
  omega

/-- Above the last row the cursor goes to the next cell. -/
theorem InScreen.right (h : t.InScreen) (hrow : t.row + 1 < t.rows) :
    t.SameSize t.right ∧ t.right.InScreen ∧ t.right.pos = t.pos + 1 ∧ t.right.cells = t.cells := by
  obtain ⟨hcol0, hcol, hrow0, -⟩ := h
  rw [Terminal.right]
  by_cases hmargin : t.cols ≤ t.col + 1
  · simp only [if_pos hmargin, newline, if_neg (Int.not_le.mpr hrow)]
    refine ⟨⟨rfl, rfl, rfl, rfl⟩, ⟨Int.le_refl 0, ?_, ?_, hrow⟩, ?_, trivial⟩
    · show 0 < t.cols
      omega
    · show 0 ≤ t.row + 1
      omega
    · show (t.row + 1) * t.cols + 0 = t.row * t.cols + t.col + 1
      rw [Int.add_mul, Int.one_mul]
      omega
  · simp only [if_neg hmargin]
    refine ⟨⟨rfl, rfl, rfl, rfl⟩, ⟨?_, ?_, hrow0, ?_⟩, ?_, trivial⟩
    · show 0 ≤ t.col + 1
      omega
    · show t.col + 1 < t.cols
      omega
    · show t.row < t.rows
      omega
    · show t.row * t.cols + (t.col + 1) = t.row * t.cols + t.col + 1
      omega

/-- A new line begins on the screen, which scrolls where it has to. -/
theorem inScreen_newline (hcols : 0 < t.cols) (hrow : 0 ≤ t.row ∧ t.row < t.rows) :
    t.SameSize t.newline ∧ t.newline.InScreen := by
  rw [newline]
  by_cases hlast : t.rows ≤ t.row + 1
  · simp only [if_pos hlast]
    refine ⟨⟨rfl, rfl, rfl, rfl⟩, Int.le_refl 0, hcols, ?_, ?_⟩
    · show 0 ≤ t.rows - 1
      omega
    · show t.rows - 1 < t.rows
      omega
  · simp only [if_neg hlast]
    refine ⟨⟨rfl, rfl, rfl, rfl⟩, Int.le_refl 0, hcols, ?_, ?_⟩
    · show 0 ≤ t.row + 1
      omega
    · show t.row + 1 < t.rows
      omega

theorem inScreen_right (h : t.InScreen) : t.SameSize t.right ∧ t.right.InScreen := by
  obtain ⟨hcol0, hcol, hrow⟩ := h
  rw [Terminal.right]
  by_cases hmargin : t.cols ≤ t.col + 1
  · simp only [if_pos hmargin]
    obtain ⟨hsize, hin⟩ :=
      inScreen_newline (t := { t with col := t.col + 1 }) (show 0 < t.cols by omega) hrow
    exact ⟨⟨hsize.cols, hsize.rows, hsize.curFg, hsize.curBg⟩, hin⟩
  · simp only [if_neg hmargin]
    refine ⟨⟨rfl, rfl, rfl, rfl⟩, ?_, ?_, hrow⟩
    · show 0 ≤ t.col + 1
      omega
    · show t.col + 1 < t.cols
      omega

/-- A character that stands for itself, above the last row. -/
theorem printChar_text (h : t.InScreen) (hrow : t.row + 1 < t.rows) {ch : UInt8} (hch : Prints ch)
    (fg bg : UInt32) : ∃ t', t.printChar ch fg bg = some t' ∧ t.SameSize t' ∧ t'.InScreen ∧
      t'.pos = t.pos + 1 ∧ ∀ p, t'.cellAt p = if p = t.pos then ⟨ch, fg, bg⟩ else t.cellAt p := by
  obtain ⟨h8, h9, h10, h13⟩ := hch
  obtain ⟨b, hprint⟩ := printPlain_of_switch
    (printSwitch_text (t := { t with cursorDrawn := false }) h h8 h10 h13 fg bg)
  obtain ⟨hsize, hin, hpos, hcells⟩ :=
    InScreen.right (t := fill { t with cursorDrawn := false } ⟨ch, fg, bg⟩) h hrow
  refine ⟨_, (if_neg h9).trans hprint, ⟨hsize.cols, hsize.rows, hsize.curFg, hsize.curBg⟩, hin, hpos, fun p => ?_⟩
  rw [← cellAt_fill h]
  show Terminal.cells _ (p / Terminal.cols _) (p % Terminal.cols _) = _
  rw [hcells, hsize.cols]
  rfl

/-- `\b` within a row. -/
theorem printChar_back (h : t.InScreen) (hcol : 0 < t.col) (fg bg : UInt32) :
    ∃ t', t.printChar 8 fg bg = some t' ∧ t.SameSize t' ∧ t'.InScreen ∧
      t'.pos = t.pos - 1 ∧ ∀ p, t'.cellAt p = if p = t.pos - 1 then ⟨32, fg, bg⟩ else t.cellAt p := by
  obtain ⟨b, hprint⟩ := printPlain_of_switch
    (printSwitch_back (t := { t with cursorDrawn := false }) h hcol fg bg)
  refine ⟨_, (if_neg (by decide)).trans hprint, ⟨rfl, rfl, rfl, rfl⟩, h.left hcol, left_pos t, fun p => ?_⟩
  rw [← left_pos]
  exact cellAt_fill (h.left hcol) ⟨32, fg, bg⟩ p

/-! ## Text on the screen -/

/-- From a cell on, the screen holds a text and then blanks, and the cursor is behind the text. -/
structure Shows (t : Terminal) (start : Int) (text : List UInt8) : Prop where
  inScreen : t.InScreen
  pos : t.pos = start + text.length
  cells : ∀ n : Nat, start + n < t.rows * t.cols → (t.cellAt (start + n)).ch = text.getD n 32

/-- The text does not reach the last row. -/
def Fits (t : Terminal) (start : Int) (text : List UInt8) : Prop :=
  start + text.length ≤ (t.rows - 1) * t.cols

instance (t : Terminal) (start : Int) (text : List UInt8) : Decidable (t.Fits start text) :=
  inferInstanceAs (Decidable (_ ≤ _))

theorem SameSize.fits {t t' : Terminal} (h : t.SameSize t') {start : Int} {text : List UInt8} :
    t'.Fits start text ↔ t.Fits start text := by
  rw [Fits, Fits, h.rows, h.cols]

theorem Fits.of_length_le {start : Int} {text text' : List UInt8} (h : t.Fits start text')
    (hlen : text.length ≤ text'.length) : t.Fits start text := by
  rw [Fits] at h ⊢
  omega

theorem getD_concat (text : List UInt8) (ch : UInt8) (n : Nat) :
    (text ++ [ch]).getD n 32 = if n = text.length then ch else text.getD n 32 := by
  simp only [List.getD_eq_getElem?_getD, List.getElem?_append]
  rcases Nat.lt_trichotomy n text.length with h | rfl | h
  · rw [if_pos h, if_neg (Nat.ne_of_lt h)]
  · rw [if_neg (Nat.lt_irrefl _), if_pos rfl, Nat.sub_self]
    rfl
  · rw [if_neg (Nat.lt_asymm h), if_neg (Nat.ne_of_gt h), List.getElem?_eq_none (Nat.le_of_lt h),
      List.getElem?_eq_none (by rw [List.length_singleton]; omega)]

namespace Shows

variable {start : Int} {text : List UInt8}

/-- The column, from the place behind the text. -/
theorem col_eq (h : t.Shows start text) : t.col = (start + text.length) % t.cols := by
  rw [h.inScreen.col_eq, h.pos]

theorem type (h : t.Shows start text) {ch : UInt8} (hch : Prints ch) (hfits : t.Fits start (text ++ [ch]))
    (fg bg : UInt32) : ∃ t', t.printChar ch fg bg = some t' ∧ t.SameSize t' ∧ t'.Shows start (text ++ [ch]) := by
  have hpos := h.pos
  rw [Fits, List.length_append, List.length_singleton, Int.natCast_add] at hfits
  obtain ⟨t', hprint, hsize, hin, hpos', hcells⟩ :=
    printChar_text h.inScreen (h.inScreen.row_lt (by omega)) hch fg bg
  refine ⟨t', hprint, hsize, hin, ?_, ?_⟩
  · rw [hpos', hpos, List.length_append, List.length_singleton, Int.natCast_add, Int.add_assoc]
    rfl
  · intro n hn
    rw [hsize.rows, hsize.cols] at hn
    rw [hcells, getD_concat]
    by_cases heq : n = text.length
    · rw [if_pos heq, if_pos (by rw [hpos, heq])]
    · rw [if_neg heq, if_neg (by omega), h.cells n hn]

theorem back {ch : UInt8} (h : t.Shows start (text ++ [ch])) (hcol : 0 < t.col) (fg bg : UInt32) :
    ∃ t', t.printChar 8 fg bg = some t' ∧ t.SameSize t' ∧ t'.Shows start text ∧ t'.col = t.col - 1 := by
  have hpos := h.pos
  rw [List.length_append, List.length_singleton, Int.natCast_add] at hpos
  obtain ⟨t', hprint, hsize, hin, hpos', hcells⟩ := printChar_back h.inScreen hcol fg bg
  refine ⟨t', hprint, hsize, ⟨hin, by omega, ?_⟩, ?_⟩
  · intro n hn
    rw [hsize.rows, hsize.cols] at hn
    have hold := h.cells n hn
    rw [getD_concat] at hold
    rw [hcells]
    by_cases heq : n = text.length
    · rw [if_pos (by omega), List.getD_eq_default _ _ (Nat.le_of_eq heq.symm)]
    · rw [if_neg heq] at hold
      rw [if_neg (by omega), hold]
  · have hplace := (place_iff ⟨Int.le_sub_one_of_lt hcol, by have hlt := h.inScreen.2.1; omega⟩ t'.pos).mpr
      (show t'.pos = t.row * t.cols + (t.col - 1) by rw [hpos', Terminal.pos]; omega)
    rw [hin.col_eq, hsize.cols, hplace.2]

/-- A text behind the text. -/
theorem typeText (more : List UInt8) : ∀ {t : Terminal} {text : List UInt8}, t.Shows start text →
    (∀ ch ∈ more, Prints ch) → t.Fits start (text ++ more) → ∀ fg bg,
    ∃ t', t.printWithColor more fg bg = some t' ∧ t.SameSize t' ∧ t'.Shows start (text ++ more) := by
  induction more with
  | nil =>
    intro t text h _ _ fg bg
    rw [List.append_nil]
    exact ⟨t, rfl, .refl t, h⟩
  | cons ch more ih =>
    intro t text h hmore hfits fg bg
    have hone : t.Fits start (text ++ [ch]) :=
      hfits.of_length_le (by simp only [List.length_append, List.length_cons, List.length_nil]; omega)
    obtain ⟨t₁, hprint, hsize, h₁⟩ := h.type (hmore ch (List.mem_cons_self ..)) hone fg bg
    rw [List.append_cons] at hfits ⊢
    obtain ⟨t₂, hprint', hsize', h₂⟩ := ih h₁ (fun c hc => hmore c (List.mem_cons_of_mem _ hc))
      (hsize.fits.mpr hfits) fg bg
    refine ⟨t₂, ?_, hsize.trans hsize', h₂⟩
    rw [printWithColor, List.foldlM_cons, hprint]
    exact hprint'

end Shows

/-! ## Blank rest -/

/-- The cursor is on the screen, and the cells from it on are blank. -/
structure Fresh (t : Terminal) : Prop where
  inScreen : t.InScreen
  blank : ∀ p, t.pos ≤ p → p < t.rows * t.cols → (t.cellAt p).ch = 32

theorem Fresh.shows (h : t.Fresh) : t.Shows t.pos [] :=
  ⟨h.inScreen, (Int.add_zero _).symm, fun n hn => h.blank _ (Int.le_add_of_nonneg_right (Int.natCast_nonneg n)) hn⟩

theorem fresh_init {cols rows : Int} (hcols : 1 ≤ cols) (hrows : 1 ≤ rows) : (init cols rows).Fresh :=
  ⟨⟨Int.le_refl 0, hcols, Int.le_refl 0, hrows⟩, fun _ _ _ => rfl⟩

/-- Everything behind the row is blank. -/
theorem fresh_newline (hcols : 0 < t.cols) (hrow : 0 ≤ t.row ∧ t.row < t.rows)
    (h : ∀ p, (t.row + 1) * t.cols ≤ p → p < t.rows * t.cols → (t.cellAt p).ch = 32) :
    t.SameSize t.newline ∧ t.newline.Fresh := by
  obtain ⟨hsize, hin⟩ := inScreen_newline hcols hrow
  refine ⟨hsize, hin, ?_⟩
  rw [newline]
  by_cases hlast : t.rows ≤ t.row + 1
  · -- the screen scrolls, and the last row becomes blank
    simp only [if_pos hlast]
    intro p hp _
    have hp : (t.rows - 1) * t.cols + 0 ≤ p := hp
    have hdiv : t.rows - 1 ≤ p / t.cols := by
      rw [Int.le_ediv_iff_mul_le hcols]
      omega
    have hno : ¬ p / t.cols + 1 < t.rows := by omega
    show (if p / t.cols + 1 < t.rows then t.cells (p / t.cols + 1) (p % t.cols) else Term.blank colorBlack).ch = 32
    rw [if_neg hno]
    rfl
  · simp only [if_neg hlast]
    intro p hp hp'
    have hp : (t.row + 1) * t.cols + 0 ≤ p := hp
    exact h p (by omega) hp'

/-- The cursor goes on from a cell, behind which everything is blank. -/
theorem fresh_right (h : t.InScreen)
    (hblank : ∀ p, t.pos < p → p < t.rows * t.cols → (t.cellAt p).ch = 32) :
    t.SameSize t.right ∧ t.right.Fresh := by
  obtain ⟨hsize, hin⟩ := inScreen_right h
  obtain ⟨hcol0, hcol, hrow0, hrow⟩ := h
  refine ⟨hsize, hin, ?_⟩
  rw [right]
  by_cases hmargin : t.cols ≤ t.col + 1
  · simp only [if_pos hmargin]
    have hbehind : ∀ p, (t.row + 1) * t.cols ≤ p → p < t.rows * t.cols → (t.cellAt p).ch = 32 := by
      intro p hp hin
      apply hblank p ?_ hin
      rw [Int.add_mul, Int.one_mul] at hp
      rw [pos]
      omega
    exact (fresh_newline (t := { t with col := t.col + 1 }) (show 0 < t.cols by omega) ⟨hrow0, hrow⟩
      hbehind).2.blank
  · simp only [if_neg hmargin]
    intro p hp hin
    apply hblank p ?_ hin
    have hp : t.row * t.cols + (t.col + 1) ≤ p := hp
    rw [pos]
    omega

theorem Fresh.printSwitch (h : t.Fresh) {ch : UInt8} (h13 : ch ≠ 13) (fg bg : UInt32) :
    ∃ t', t.printSwitch ch fg bg = some t' ∧ t.SameSize t' ∧ t'.Fresh := by
  by_cases h10 : ch = 10
  · obtain ⟨hcol0, hcol, hrow⟩ := h.inScreen
    have hbehind : ∀ p, (t.row + 1) * t.cols ≤ p → t.pos ≤ p := by
      intro p hp
      rw [Int.add_mul, Int.one_mul] at hp
      rw [pos]
      omega
    obtain ⟨hsize, hfresh⟩ := fresh_newline (by omega) hrow fun p hp hin => h.blank p (hbehind p hp) hin
    exact ⟨_, if_pos h10, hsize, hfresh⟩
  by_cases h8 : ch = 8
  · subst h8
    by_cases hcol : 0 < t.col
    · refine ⟨_, printSwitch_back h.inScreen hcol fg bg, ⟨rfl, rfl, rfl, rfl⟩, h.inScreen.left hcol, ?_⟩
      intro p hp hin
      rw [cellAt_fill (h.inScreen.left hcol)]
      have hp : t.left.pos ≤ p := hp
      split
      · rfl
      · next hne =>
        rw [left_pos] at hp hne
        exact h.blank p (by omega) hin
    · refine ⟨t, ?_, .refl t, h⟩
      rw [Terminal.printSwitch, if_neg (by decide), if_neg (by decide), if_pos rfl, if_neg hcol]
  · obtain ⟨hsize, hfresh⟩ := fresh_right (t := t.fill ⟨ch, fg, bg⟩) h.inScreen fun p hp hin => by
      have hp : t.pos < p := hp
      rw [cellAt_fill h.inScreen, if_neg (Int.ne_of_gt hp)]
      exact h.blank p (Int.le_of_lt hp) hin
    exact ⟨_, printSwitch_text h.inScreen h8 h10 h13 fg bg, ⟨hsize.cols, hsize.rows, hsize.curFg, hsize.curBg⟩, hfresh⟩

theorem Fresh.printPlain (h : t.Fresh) {ch : UInt8} (h13 : ch ≠ 13) (fg bg : UInt32) :
    ∃ t', t.printPlain ch fg bg = some t' ∧ t.SameSize t' ∧ t'.Fresh := by
  have hhidden : Fresh { t with cursorDrawn := false } := ⟨h.inScreen, h.blank⟩
  obtain ⟨t', hswitch, hsize, hfresh⟩ := hhidden.printSwitch h13 fg bg
  obtain ⟨b, hprint⟩ := printPlain_of_switch hswitch
  exact ⟨_, hprint, ⟨hsize.cols, hsize.rows, hsize.curFg, hsize.curBg⟩, hfresh.inScreen, hfresh.blank⟩

/-- A character that stands for itself takes the cursor one column on, or to the next row. -/
theorem printPlain_col {t t' : Terminal} {ch : UInt8} {fg bg : UInt32} (hch : Prints ch)
    (h : t.printPlain ch fg bg = some t') : t'.col = 0 ∨ t'.col = t.col + 1 := by
  obtain ⟨h8, h9, h10, h13⟩ := hch
  rw [Terminal.printPlain, hideCursor_eq] at h
  obtain ⟨u, hswitch, rfl⟩ := Option.map_eq_some_iff.mp h
  obtain ⟨b, hb⟩ := drawCursor_eq u true
  rw [hb]
  rw [Terminal.printSwitch, if_neg h10, if_neg h13, if_neg h8] at hswitch
  obtain ⟨v, hput, hv⟩ := Option.bind_eq_some_iff.mp hswitch
  rw [putChar] at hput
  split at hput
  · cases hput
    cases hv
    split
    · refine .inl ?_
      show (Terminal.newline _).col = 0
      rw [newline]
      split <;> rfl
    · exact .inr rfl
  · cases hput

/-- What the spaces of a tab keep, the tab keeps. -/
theorem tab_total {P : Terminal → Prop} {fg bg : UInt32}
    (hspace : ∀ u, P u → ∃ u', u.printPlain 32 fg bg = some u' ∧ P u') {t : Terminal} (ht : P t) :
    ∃ t', loop (tabRound fg bg) 4 t = some t' ∧ P t' := by
  have hround : ∀ u, P u → (∃ r, tabRound fg bg u = some (.done r) ∧ P r) ∨
      ∃ u', tabRound fg bg u = some (.next u') ∧ P u' ∧
        (3 - u'.col % 4).toNat < (3 - u.col % 4).toNat := by
    intro u hu
    obtain ⟨u', hprint, hu'⟩ := hspace u hu
    have hcol := printPlain_col (show Prints 32 by decide) hprint
    rw [tabRound, hprint]
    by_cases hmod : u'.col % 4 ≠ 0
    · refine .inr ⟨u', congrArg some (if_pos hmod), hu', ?_⟩
      rcases hcol with hcol | hcol
      · rw [hcol] at hmod
        exact absurd rfl hmod
      · rw [hcol] at hmod ⊢
        omega
    · exact .inl ⟨u', congrArg some (if_neg hmod), hu'⟩
  apply loop_total _ P _ (fun u => (3 - u.col % 4).toNat) hround _ _ ht
  show (3 - t.col % 4).toNat < 4
  omega

/-- What every character keeps, a text keeps. -/
theorem printWithColor_total {P : Terminal → Prop} {fg bg : UInt32} (str : List UInt8)
    (hchar : ∀ ch ∈ str, ∀ u, P u → ∃ u', u.printChar ch fg bg = some u' ∧ P u') :
    ∀ {t : Terminal}, P t → ∃ t', t.printWithColor str fg bg = some t' ∧ P t' := by
  induction str with
  | nil => exact fun ht => ⟨_, rfl, ht⟩
  | cons ch str ih =>
    intro t ht
    obtain ⟨t₁, hprint, h₁⟩ := hchar ch (List.mem_cons_self ..) t ht
    obtain ⟨t₂, hrest, h₂⟩ := ih (fun c hc => hchar c (List.mem_cons_of_mem _ hc)) h₁
    refine ⟨t₂, ?_, h₂⟩
    rw [Terminal.printWithColor, List.foldlM_cons, hprint]
    exact hrest

/-- Printing anything but `\r` leaves the screen blank from the cursor on. -/
theorem Fresh.printChar (h : t.Fresh) {ch : UInt8} (h13 : ch ≠ 13) (fg bg : UInt32) :
    ∃ t', t.printChar ch fg bg = some t' ∧ t.SameSize t' ∧ t'.Fresh := by
  rw [Terminal.printChar]
  by_cases htab : ch = 9
  · rw [if_pos htab, hideCursor_eq]
    apply tab_total (P := fun u => t.SameSize u ∧ u.Fresh)
    · rintro u ⟨hsize, hu⟩
      obtain ⟨u', hprint, hsize', hu'⟩ := hu.printPlain (show (32 : UInt8) ≠ 13 by decide) fg bg
      exact ⟨u', hprint, hsize.trans hsize', hu'⟩
    · exact ⟨⟨rfl, rfl, rfl, rfl⟩, h.inScreen, h.blank⟩
  · rw [if_neg htab]
    exact h.printPlain h13 fg bg

theorem Fresh.printWithColor (str : List UInt8) {t : Terminal} (h : t.Fresh) (hstr : 13 ∉ str)
    (fg bg : UInt32) : ∃ t', t.printWithColor str fg bg = some t' ∧ t.SameSize t' ∧ t'.Fresh := by
  apply printWithColor_total (P := fun u => t.SameSize u ∧ u.Fresh)
  · rintro ch hch u ⟨hsize, hu⟩
    obtain ⟨u', hprint, hsize', hu'⟩ := hu.printChar (fun h13 => hstr (h13 ▸ hch)) fg bg
    exact ⟨u', hprint, hsize.trans hsize', hu'⟩
  · exact ⟨.refl t, h⟩

end Terminal

end ChocoOs.Term
