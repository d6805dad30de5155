import ChocoOs.Term.Cursor

/-!
# Drawing inside the screen

`framebuffer_put_char` tests no bounds; that it is only called with a place on the screen rests on the
cursor. Every call of the terminal finds the cursor on the screen and leaves it there.
-/

namespace ChocoOs.Term

namespace Terminal

variable {t : Terminal}

theorem inScreen_printSwitch (h : t.InScreen) (ch : UInt8) (fg bg : UInt32) :
    ∃ t', t.printSwitch ch fg bg = some t' ∧ t.SameSize t' ∧ t'.InScreen := by
  have hcols : 0 < t.cols := Int.lt_of_le_of_lt h.1 h.2.1
  have hrow := h.2.2
  by_cases h10 : ch = 10
  · exact ⟨t.newline, if_pos h10, inScreen_newline hcols hrow⟩
  by_cases h13 : ch = 13
  · refine ⟨{ t with col := 0 }, ?_, ⟨rfl, rfl, rfl, rfl⟩, Int.le_refl 0, hcols, hrow⟩
    rw [printSwitch, if_neg h10, if_pos h13]
  by_cases h8 : ch = 8
  · subst h8
    by_cases hpos : 0 < t.col
    · exact ⟨_, printSwitch_back h hpos fg bg, ⟨rfl, rfl, rfl, rfl⟩, h.left hpos⟩
    · refine ⟨t, ?_, .refl t, h⟩
      rw [printSwitch, if_neg h10, if_neg h13, if_pos rfl, if_neg hpos]
  · obtain ⟨hsize, hin⟩ := inScreen_right (t := t.fill ⟨ch, fg, bg⟩) h
    exact ⟨_, printSwitch_text h h8 h10 h13 fg bg, ⟨hsize.cols, hsize.rows, hsize.curFg, hsize.curBg⟩, hin⟩

theorem inScreen_printPlain (h : t.InScreen) (ch : UInt8) (fg bg : UInt32) :
    ∃ t', t.printPlain ch fg bg = some t' ∧ t.SameSize t' ∧ t'.InScreen := by
  obtain ⟨t', hswitch, hsize, hin⟩ :=
    inScreen_printSwitch (t := { t with cursorDrawn := false }) h ch fg bg
  obtain ⟨b, hprint⟩ := printPlain_of_switch hswitch
  exact ⟨_, hprint, ⟨hsize.cols, hsize.rows, hsize.curFg, hsize.curBg⟩, hin⟩

theorem inScreen_printChar (h : t.InScreen) (ch : UInt8) (fg bg : UInt32) :
    ∃ t', t.printChar ch fg bg = some t' ∧ t.SameSize t' ∧ t'.InScreen := by
  rw [printChar]
  by_cases htab : ch = 9
  · rw [if_pos htab, hideCursor_eq]
    apply tab_total (P := fun u => t.SameSize u ∧ u.InScreen)
    · rintro u ⟨hsize, hu⟩
      obtain ⟨u', hprint, hsize', hu'⟩ := inScreen_printPlain hu 32 fg bg
      exact ⟨u', hprint, hsize.trans hsize', hu'⟩
    · exact ⟨⟨rfl, rfl, rfl, rfl⟩, h⟩
  · rw [if_neg htab]
    exact inScreen_printPlain h ch fg bg

theorem inScreen_print (h : t.InScreen) (str : List UInt8) :
    ∃ t', t.print str = some t' ∧ t.SameSize t' ∧ t'.InScreen := by
  apply printWithColor_total (P := fun u => t.SameSize u ∧ u.InScreen)
  · rintro ch - u ⟨hsize, hu⟩
    obtain ⟨u', hprint, hsize', hu'⟩ := inScreen_printChar hu ch t.curFg t.curBg
    exact ⟨u', hprint, hsize.trans hsize', hu'⟩
  · exact ⟨.refl t, h⟩

/-! ## Calls -/

theorem inScreen_drawCursor (h : t.InScreen) (on : Bool) :
    t.SameSize (t.drawCursor on) ∧ (t.drawCursor on).InScreen := by
  obtain ⟨b, hb⟩ := drawCursor_eq t on
  rw [hb]
  exact ⟨⟨rfl, rfl, rfl, rfl⟩, h⟩

/-- A place outside the screen is ignored, one coordinate at a time. -/
theorem inScreen_setPos (h : t.InScreen) (c r : Int) :
    t.SameSize (t.setPos c r) ∧ (t.setPos c r).InScreen := by
  have hcol : ∀ u : Terminal, u.InScreen →
      u.SameSize (if 0 ≤ c ∧ c < u.cols then { u with col := c } else u) ∧
        InScreen (if 0 ≤ c ∧ c < u.cols then { u with col := c } else u) := by
    intro u hu
    by_cases hc : 0 ≤ c ∧ c < u.cols
    · rw [if_pos hc]
      exact ⟨⟨rfl, rfl, rfl, rfl⟩, hc.1, hc.2, hu.2.2⟩
    · rw [if_neg hc]
      exact ⟨.refl u, hu⟩
  have hrow : ∀ u : Terminal, u.InScreen →
      u.SameSize (if 0 ≤ r ∧ r < u.rows then { u with row := r } else u) ∧
        InScreen (if 0 ≤ r ∧ r < u.rows then { u with row := r } else u) := by
    intro u hu
    by_cases hr : 0 ≤ r ∧ r < u.rows
    · rw [if_pos hr]
      exact ⟨⟨rfl, rfl, rfl, rfl⟩, hu.1, hu.2.1, hr⟩
    · rw [if_neg hr]
      exact ⟨.refl u, hu⟩
  rw [setPos, hideCursor_eq]
  obtain ⟨hsize₁, h₁⟩ := hcol { t with cursorDrawn := false } h
  obtain ⟨hsize₂, h₂⟩ := hrow _ h₁
  obtain ⟨hsize₃, h₃⟩ := inScreen_drawCursor h₂ true
  have hsize := (hsize₁.trans hsize₂).trans hsize₃
  exact ⟨⟨hsize.cols, hsize.rows, hsize.curFg, hsize.curBg⟩, h₃⟩

theorem inScreen_setCursorVisible (h : t.InScreen) (visible : Bool) :
    t.SameSize (t.setCursorVisible visible) ∧ (t.setCursorVisible visible).InScreen := by
  cases visible with
  | true =>
    obtain ⟨hsize, hin⟩ := inScreen_drawCursor (t := { t with cursorVisible := true }) h true
    exact ⟨⟨hsize.cols, hsize.rows, hsize.curFg, hsize.curBg⟩, hin⟩
  | false =>
    simp only [setCursorVisible, Bool.not_false, Bool.true_and, Bool.false_eq_true, if_false,
      hideCursor_eq]
    exact ⟨⟨rfl, rfl, rfl, rfl⟩, h⟩

theorem inScreen_clear (h : t.InScreen) (color : UInt32) :
    t.SameSize (t.clear color) ∧ (t.clear color).InScreen := by
  refine ⟨⟨rfl, rfl, rfl, rfl⟩, Int.le_refl 0, ?_, Int.le_refl 0, ?_⟩
  · exact Int.lt_of_le_of_lt h.1 h.2.1
  · exact Int.lt_of_le_of_lt h.2.2.1 h.2.2.2

end Terminal

/-- A call after `term_init`. -/
inductive Call where
  | printChar (ch : UInt8) (fg bg : UInt32)
  | print (str : List UInt8)
  | setPos (c r : Int)
  | setCursorVisible (visible : Bool)
  | clear (color : UInt32)

def Call.run (t : Terminal) : Call → Option Terminal
  | .printChar ch fg bg => t.printChar ch fg bg
  | .print str => t.print str
  | .setPos c r => some (t.setPos c r)
  | .setCursorVisible visible => some (t.setCursorVisible visible)
  | .clear color => some (t.clear color)

theorem Call.run_inside {t : Terminal} (h : t.InScreen) (call : Call) :
    ∃ t', call.run t = some t' ∧ t.SameSize t' ∧ t'.InScreen := by
  cases call with
  | printChar ch fg bg => exact Terminal.inScreen_printChar h ch fg bg
  | print str => exact Terminal.inScreen_print h str
  | setPos c r => exact ⟨_, rfl, Terminal.inScreen_setPos h c r⟩
  | setCursorVisible visible => exact ⟨_, rfl, Terminal.inScreen_setCursorVisible h visible⟩
  | clear color => exact ⟨_, rfl, Terminal.inScreen_clear h color⟩

/-- Every sequence of calls ends, and draws on the screen only. -/
theorem calls_inside (calls : List Call) {cols rows : Int} (hcols : 1 ≤ cols) (hrows : 1 ≤ rows) :
    ∃ t, calls.foldlM Call.run (Terminal.init cols rows) = some t ∧ t.cols = cols ∧ t.rows = rows ∧
      t.InScreen := by
  have hrun : ∀ (calls : List Call) (t : Terminal), t.InScreen →
      ∃ t', calls.foldlM Call.run t = some t' ∧ t.SameSize t' ∧ t'.InScreen := by
    intro calls
    induction calls with
    | nil => exact fun t ht => ⟨t, rfl, .refl t, ht⟩
    | cons call calls ih =>
      intro t ht
      obtain ⟨u, hcall, hsize, hu⟩ := call.run_inside ht
      obtain ⟨t', hrest, hsize', ht'⟩ := ih u hu
      refine ⟨t', ?_, hsize.trans hsize', ht'⟩
      rw [List.foldlM_cons, hcall]
      exact hrest
  obtain ⟨t, hcalls, hsize, ht⟩ := hrun calls _ (Terminal.fresh_init hcols hrows).inScreen
  exact ⟨t, hcalls, hsize.cols, hsize.rows, ht⟩

/-- A tab and a backspace on a screen of a single cell. -/
theorem calls_inside_cell : ∃ t, [Call.printChar 9 0 0, .setPos (-1) 7, .printChar 8 0 0].foldlM
    Call.run (Terminal.init 1 1) = some t ∧ t.cols = 1 ∧ t.rows = 1 ∧ t.InScreen :=
  calls_inside _ (by decide) (by decide)

end ChocoOs.Term
