import ChocoOs.Lib.Transition
import ChocoOs.Shell.EditorRun
import ChocoOs.Term.Cursor

/-!
# The line on the screen

The editor erases with `\b`, which the terminal stops at the beginning of a row. As long as what is
erased lies on the row of the cursor, the screen shows the prompt and the line.
-/

namespace ChocoOs.Shell
open ProgLib Keyboard Term

/-- What the editor asks of the terminal. What a command prints is not modelled. -/
def perform (t : Terminal) : Output → Option Terminal
  | .clear => some (t.clear colorBlack)
  | .print text => t.print text
  | .colored text fg => t.printWithColor text fg colorBlack
  | .echo ch => t.printChar ch t.curFg t.curBg
  | .command _ => none

/-- The editor and the terminal in one round. -/
def pressKey (s : Editor × Terminal) (i : Input) : Option (Editor × Terminal) := do
  let (e, out) ← s.1.keyRound i.ev i.left.1 i.path
  return (e, ← out.foldlM perform s.2)

def screenStep (s : Option (Editor × Terminal)) (i : Input) : Option (Editor × Terminal) :=
  s.bind fun s => pressKey s i

/-- The characters of the prompt. -/
def promptText (path : List UInt8) : List UInt8 :=
  [99, 104, 111, 99, 111] ++ [space] ++ path ++ [space, 62, space]

/-- A character, a backspace, or an arrow key. -/
def Edits (ev : KeyEvent) : Prop :=
  (ev.code = .keyUp ∨ ev.code = .keyDown) ∨
    ev.code = .keyChar ∧ ev.ctrl = false ∧ (ev.ch = 8 ∨ Printable ev.ch)

instance (ev : KeyEvent) : Decidable (Edits ev) := inferInstanceAs (Decidable (_ ∨ _))

/-- What the key erases lies on the row of the cursor: a character for a backspace, the line for an arrow
    key. -/
def InRow (e : Editor) (t : Terminal) (ev : KeyEvent) : Prop :=
  if ev.code = .keyChar then ev.ch = 8 → 0 < e.len → 0 < t.col
  else e.historyCount ≠ 0 → e.len ≤ t.col

instance (e : Editor) (t : Terminal) (ev : KeyEvent) : Decidable (InRow e t ev) :=
  inferInstanceAs (Decidable (ite ..))

/-- The line after a round does not reach the last row. -/
def StaysAbove (start : Int) (path : List UInt8) (e : Editor) (t : Terminal) (i : Input) : Prop :=
  match e.keyRound i.ev i.left.1 i.path with
  | some (e', _) => t.Fits start (promptText path ++ e'.line)
  | none => True

/-- The screen shows the prompt, the line and blanks. -/
def ShowsLine (start : Int) (path : List UInt8) : Option (Editor × Terminal) → Prop
  | some (e, t) => t.Shows start (promptText path ++ e.line)
  | none => False

instance (start : Int) (path : List UInt8) (e : Editor) (t : Terminal) (i : Input) :
    Decidable (StaysAbove start path e t i) :=
  match h : e.keyRound i.ev i.left.1 i.path with
  | some (e', _) => decidable_of_iff (t.Fits start (promptText path ++ e'.line)) (by rw [StaysAbove, h])
  | none => .isTrue (by rw [StaysAbove, h]; trivial)

/-- The keys that may come, as long as the text does not reach the last row. -/
def Entered (start : Int) (path : List UInt8) : Option (Editor × Terminal) → Input → Prop
  | some (e, t), i => Edits i.ev ∧ StaysAbove start path e t i
  | none, _ => True

instance (start : Int) (path : List UInt8) (s : Option (Editor × Terminal)) (i : Input) :
    Decidable (Entered start path s i) :=
  match s with
  | some _ => inferInstanceAs (Decidable (_ ∧ _))
  | none => .isTrue trivial

/-- What is erased lies on the row of the cursor. -/
def ErasesInRow : Option (Editor × Terminal) → Input → Prop
  | some (e, t), i => InRow e t i.ev
  | none, _ => True

instance (s : Option (Editor × Terminal)) (i : Input) : Decidable (ErasesInRow s i) :=
  match s with
  | some (e, t) => inferInstanceAs (Decidable (InRow e t i.ev))
  | none => .isTrue trivial

/-! ## Erasing and redrawing -/

variable {t : Terminal} {start : Int}

/-- `\b` as many times as a text on the cursor's row is long. -/
theorem perform_backs (n : Nat) : ∀ {t : Terminal} {text tail : List UInt8}, tail.length = n →
    t.Shows start (text ++ tail) → (n : Int) ≤ t.col →
    ∃ t', (List.replicate n (.print [8])).foldlM perform t = some t' ∧ t.SameSize t' ∧
      t'.Shows start text := by
  induction n with
  | zero =>
    intro t text tail hlen h _
    rw [List.eq_nil_of_length_eq_zero hlen, List.append_nil] at h
    exact ⟨t, rfl, .refl t, h⟩
  | succ n ih =>
    intro t text tail hlen h hcol
    obtain ⟨tail, ch, rfl⟩ : ∃ tail' ch, tail = tail' ++ [ch] := by
      rcases List.eq_nil_or_concat' tail with rfl | h
      · cases hlen
      · exact h
    rw [List.length_append, List.length_singleton] at hlen
    rw [← List.append_assoc] at h
    obtain ⟨t₁, hprint, hsize, h₁, hcol₁⟩ := h.back (by omega) t.curFg t.curBg
    obtain ⟨t₂, hrest, hsize', h₂⟩ := ih (Nat.succ.inj hlen) h₁ (by omega)
    refine ⟨t₂, ?_, hsize.trans hsize', h₂⟩
    rw [List.replicate_succ, List.foldlM_cons, perform, Terminal.print, Terminal.printWithColor,
      List.foldlM_cons, hprint]
    exact hrest

theorem perform_spaces (n : Nat) : ∀ {t : Terminal} {text : List UInt8}, t.Shows start text →
    t.Fits start (text ++ List.replicate n space) →
    ∃ t', (List.replicate n (.print [space])).foldlM perform t = some t' ∧ t.SameSize t' ∧
      t'.Shows start (text ++ List.replicate n space) := by
  induction n with
  | zero =>
    intro t text h _
    rw [List.replicate_zero (a := space), List.append_nil]
    exact ⟨t, rfl, .refl t, h⟩
  | succ n ih =>
    intro t text h hfits
    rw [List.replicate_succ (a := space), List.append_cons] at hfits ⊢
    have hone : t.Fits start (text ++ [space]) :=
      hfits.of_length_le (by simp only [List.length_append]; omega)
    obtain ⟨t₁, hprint, hsize, h₁⟩ := h.typeText [space] (prints_of_all rfl) hone t.curFg t.curBg
    obtain ⟨t₂, hrest, hsize', h₂⟩ := ih h₁ (hsize.fits.mpr hfits)
    refine ⟨t₂, ?_, hsize.trans hsize', h₂⟩
    rw [List.replicate_succ, List.foldlM_cons, perform, Terminal.print, hprint]
    exact hrest

/-- The column of the cursor behind a text that ends on the same row. -/
theorem col_of_length {t' : Terminal} {text text' : List UInt8} (h : t.Shows start text)
    (h' : t'.Shows start text') (hsize : t.SameSize t') (hlen : text.length = text'.length) : t'.col = t.col := by
  rw [h.col_eq, h'.col_eq, hsize.cols, hlen]

/-- A line on the cursor's row is replaced by another one. -/
theorem redrawLine_shows {shown old new : List UInt8} (h : t.Shows start (shown ++ old))
    (hcol : (old.length : Int) ≤ t.col) (hnew : ∀ ch ∈ new, Prints ch) (hold : t.Fits start (shown ++ old))
    (hfits : t.Fits start (shown ++ new)) :
    ∃ t', (redrawLine new old.length).foldlM perform t = some t' ∧ t.SameSize t' ∧
      t'.Shows start (shown ++ new) := by
  obtain ⟨t₁, hback, hsize₁, h₁⟩ := perform_backs old.length rfl h hcol
  obtain ⟨t₂, hprint, hsize₂, h₂⟩ := h₁.typeText new hnew (hsize₁.fits.mpr hfits) t₁.curFg t₁.curBg
  have hsize := hsize₁.trans hsize₂
  -- the new line is followed by blanks as far as the old one went
  generalize hrest : ((old.length : Int) - new.length).toNat = rest
  have hblanks : t₂.Fits start (shown ++ new ++ List.replicate rest space) := by
    by_cases h0 : rest = 0
    · rw [h0, List.replicate_zero, List.append_nil]
      exact hsize.fits.mpr hfits
    · apply (hsize.fits.mpr hold).of_length_le
      simp only [List.length_append, List.length_replicate]
      omega
  obtain ⟨t₃, hspaces, hsize₃, h₃⟩ := perform_spaces rest h₂ hblanks
  have hroom : (rest : Int) ≤ t₃.col := by
    by_cases h0 : rest = 0
    · rw [h0]
      exact h₃.inScreen.1
    · have hlen : (shown ++ old).length = (shown ++ new ++ List.replicate rest space).length := by
        simp only [List.length_append, List.length_replicate]
        omega
      rw [col_of_length h h₃ (hsize.trans hsize₃) hlen]
      omega
  obtain ⟨t₄, hback', hsize₄, h₄⟩ := perform_backs rest List.length_replicate h₃ hroom
  refine ⟨t₄, ?_, (hsize.trans hsize₃).trans hsize₄, h₄⟩
  rw [redrawLine, Int.toNat_natCast, hrest, List.foldlM_append, List.foldlM_append]
  simp only [List.foldlM_cons, hback, Option.bind_eq_bind, Option.bind_some, perform, Terminal.print, hprint,
    hspaces, hback']

theorem prints_of_printable {ch : UInt8} (h : Printable ch) : Prints ch := by
  refine ⟨?_, ?_, ?_, ?_⟩ <;> rintro rfl <;> exact absurd h (by decide)

/-- The prompt is shown where the screen was blank. -/
theorem prompt_shows (h : t.Shows start []) {path : List UInt8} (hpath : ∀ ch ∈ path, Prints ch)
    (hfits : t.Fits start (promptText path)) :
    ∃ t', (prompt path).foldlM perform t = some t' ∧ t.SameSize t' ∧ t'.Shows start (promptText path) := by
  have hshorter : ∀ text more : List UInt8, text ++ more = promptText path → t.Fits start text := by
    intro text more heq
    apply hfits.of_length_le
    rw [← heq, List.length_append]
    exact Nat.le_add_right ..
  obtain ⟨t₁, h₁, hsize₁, hs₁⟩ := h.typeText [99, 104, 111, 99, 111] (prints_of_all rfl)
    (hshorter _ ([space] ++ path ++ [space, 62, space]) (by simp only [promptText, List.append_assoc, List.nil_append]))
    colorMagenta colorBlack
  obtain ⟨t₂, h₂, hsize₂, hs₂⟩ := hs₁.typeText [space] (prints_of_all rfl)
    (hsize₁.fits.mpr (hshorter _ (path ++ [space, 62, space])
      (by simp only [promptText, List.append_assoc, List.nil_append]))) colorWhite colorBlack
  have hsize := hsize₁.trans hsize₂
  obtain ⟨t₃, h₃, hsize₃, hs₃⟩ := hs₂.typeText path hpath
    (hsize.fits.mpr (hshorter _ [space, 62, space] (by simp only [promptText, List.nil_append])))
    colorCyan colorBlack
  have hsize := hsize.trans hsize₃
  obtain ⟨t₄, h₄, hsize₄, hs₄⟩ := hs₃.typeText [space, 62, space] (prints_of_all rfl)
    (hsize.fits.mpr hfits) colorWhite colorBlack
  refine ⟨t₄, ?_, hsize.trans hsize₄, hs₄⟩
  simp only [prompt, List.foldlM_cons, List.foldlM_nil, perform, h₁, h₂, h₃, h₄, Option.bind_eq_bind,
    Option.bind_some, Option.pure_def]

/-! ## One key -/

theorem pressKey_eq {e e' : Editor} {t' : Terminal} {i : Input} {out : List Output}
    (hround : e.keyRound i.ev i.left.1 i.path = some (e', out)) (hout : out.foldlM perform t = some t') :
    pressKey (e, t) i = some (e', t') := by
  rw [pressKey, hround]
  simp only [Option.bind_eq_bind, Option.bind_some, hout, Option.pure_def]

/-- An arrow key. -/
theorem arrow_shows {path : List UInt8} {e : Editor} {lines : List (List UInt8)} (he : e.Ok lines)
    (h : t.Shows start (promptText path ++ e.line)) (hfits : t.Fits start (promptText path ++ e.line))
    {code : KeyCode} (hrow : e.historyCount ≠ 0 → e.len ≤ t.col)
    (habove : ∀ e' out, e.arrow code = some (e', out) → t.Fits start (promptText path ++ e'.line)) :
    ∃ e' out t', e.arrow code = some (e', out) ∧ out.foldlM perform t = some t' ∧ e'.Ok lines ∧
      t.SameSize t' ∧ t'.Shows start (promptText path ++ e'.line) := by
  by_cases hcount : e.historyCount = 0
  · refine ⟨e, [], t, ?_, rfl, he, .refl t, h⟩
    rw [Editor.arrow, if_pos hcount]
    rfl
  · obtain ⟨buf, text, pos, hrecall, hbuf, htext, hpos, hrec⟩ := he.arrow_eq hcount code
    have hprint := he.printable_recalled hrec
    have hnew := habove _ _ hrecall
    have hok := he.replace hbuf (htext.symm ▸ hprint) hpos
    have hline : Editor.line { e with buf := buf, len := (text.length : Nat), histPos := pos } = text := by
      rw [← htext]
      exact take_rowText buf
    have hcol := hrow hcount
    rw [htext] at hok
    rw [hline] at hnew
    rw [← he.length_line] at hrecall hcol
    obtain ⟨t', hredraw, hsize, h'⟩ :=
      redrawLine_shows h hcol (fun ch hch => prints_of_printable (hprint ch hch)) hfits hnew
    refine ⟨_, _, t', hrecall, hredraw, hok, hsize, ?_⟩
    rw [hline]
    exact h'

/-- A key that erases within the row keeps the screen up to date. -/
theorem pressKey_shows {path : List UInt8} {e : Editor} {lines : List (List UInt8)} (he : e.Ok lines)
    (h : t.Shows start (promptText path ++ e.line)) (hfits : t.Fits start (promptText path ++ e.line)) {i : Input}
    (hkey : Edits i.ev) (hrow : InRow e t i.ev) (habove : StaysAbove start path e t i) :
    ∃ e' t', pressKey (e, t) i = some (e', t') ∧ e'.Ok lines ∧ t'.Fits start (promptText path ++ e'.line) ∧
      t'.Shows start (promptText path ++ e'.line) := by
  rw [StaysAbove] at habove
  suffices hround : ∃ e' out t', e.keyRound i.ev i.left.1 i.path = some (e', out) ∧
      out.foldlM perform t = some t' ∧ e'.Ok lines ∧ t.SameSize t' ∧
      t'.Shows start (promptText path ++ e'.line) by
    obtain ⟨e', out, t', hround, hout, hok, hsize, h'⟩ := hround
    rw [hround] at habove
    exact ⟨e', t', pressKey_eq hround hout, hok, hsize.fits.mpr habove, h'⟩
  rcases hkey with harrow | ⟨hcode, hctrl, hch⟩
  · have hround : e.keyRound i.ev i.left.1 i.path = e.arrow i.ev.code := if_pos harrow
    have hchar : i.ev.code ≠ .keyChar := by
      rintro hcode
      rw [hcode] at harrow
      exact absurd harrow (by decide)
    rw [InRow, if_neg hchar] at hrow
    rw [hround] at habove ⊢
    exact arrow_shows he h hfits hrow fun e' out hrecall => by rwa [hrecall] at habove
  · rw [InRow, if_pos hcode] at hrow
    rw [keyRound_plain hcode hctrl] at habove ⊢
    rcases hch with hback | hprint
    · rw [hback, if_neg (by decide), if_pos rfl]
      by_cases hlen : 0 < e.len
      · obtain ⟨hline, hok⟩ := he.erase hlen
        have hne : e.line ≠ [] := by
          intro hnil
          have hlength := he.length_line
          rw [hnil, List.length_nil] at hlength
          omega
        rw [← List.dropLast_append_getLast hne, ← List.append_assoc] at h
        obtain ⟨t', hout, hsize, h', -⟩ := h.back (hrow hback hlen) t.curFg t.curBg
        rw [if_pos hlen]
        refine ⟨_, _, t', rfl, ?_, hok, hsize, ?_⟩
        · rw [List.foldlM_cons, perform, hout]
          rfl
        · rw [hline]
          exact h'
      · rw [if_neg hlen]
        exact ⟨e, [], t, rfl, rfl, he, .refl t, h⟩
    · have h10 : i.ev.ch ≠ 10 := by
        intro heq
        rw [heq] at hprint
        exact absurd hprint (by decide)
      have h8 : i.ev.ch ≠ 8 := (prints_of_printable hprint).1
      rw [if_neg h10, if_neg h8] at habove ⊢
      by_cases hroom : e.len < (lineMax : Int) - 1
      · obtain ⟨buf, hpoke, hline, hok⟩ := he.type hroom hprint
        rw [if_pos ⟨hroom, hprint⟩, hpoke] at habove ⊢
        simp only [Option.map_some, hline] at habove
        rw [← List.append_assoc] at habove
        obtain ⟨t', hout, hsize, h'⟩ := h.type (prints_of_printable hprint) habove t.curFg t.curBg
        refine ⟨_, _, t', rfl, ?_, hok, hsize, ?_⟩
        · rw [List.foldlM_cons, perform, hout]
          rfl
        · rw [hline, ← List.append_assoc]
          exact h'
      · rw [if_neg fun hyp => hroom hyp.1]
        exact ⟨e, [], t, rfl, rfl, he, .refl t, h⟩

/-! ## A run -/

/-- The editor after some run. -/
def Editor.Reached (e : Editor) : Prop :=
  ∃ (buf : LineBuf) (inputs : List Input) (lines : List (List UInt8)),
    inputs.foldlM editRound (Editor.start buf, []) = some (e, lines)

theorem Editor.Reached.ok {e : Editor} (h : e.Reached) : ∃ lines, e.Ok lines := by
  obtain ⟨buf, inputs, lines, hrun⟩ := h
  obtain ⟨e', lines', hrun', hok⟩ := editRounds_ok inputs (Editor.Ok.start buf)
  rw [hrun] at hrun'
  cases hrun'
  exact ⟨lines, hok⟩

/-- The screen shows the line that is edited behind a prompt, as long as every key erases only on the
    cursor's row. -/
theorem screen_shows_line {e : Editor} (he : e.Reached) (hlen : e.len = 0) (ht : t.Fresh)
    {path : List UInt8} (hpath : ∀ ch ∈ path, Prints ch) (hfits : t.Fits t.pos (promptText path)) :
    ∃ t₁, (prompt path).foldlM perform t = some t₁ ∧ ∀ inputs,
      Admitted screenStep (Entered t.pos path) (some (e, t₁)) inputs →
      Admitted screenStep ErasesInRow (some (e, t₁)) inputs →
      Always screenStep (ShowsLine t.pos path) (some (e, t₁)) inputs := by
  obtain ⟨lines, hok⟩ := he.ok
  obtain ⟨t₁, hprompt, hsize, h₁⟩ := prompt_shows ht.shows hpath hfits
  refine ⟨t₁, hprompt, fun inputs hentered herases => ?_⟩
  have hempty : e.line = [] := by
    rw [Editor.line, hlen]
    rfl
  let I : Option (Editor × Terminal) → Prop := fun s => ∃ e t₀, s = some (e, t₀) ∧ e.Ok lines ∧
    t₀.Fits t.pos (promptText path ++ e.line) ∧ t₀.Shows t.pos (promptText path ++ e.line)
  have hstart : I (some (e, t₁)) := by
    refine ⟨e, t₁, rfl, hok, ?_, ?_⟩
    · rw [hempty, List.append_nil]
      exact hsize.fits.mpr hfits
    · rw [hempty, List.append_nil]
      exact h₁
  apply always_of_admitted (I := I) ?_ ?_ hstart (hentered.and herases)
  · rintro s i ⟨e, t, rfl, hok, hfits, h⟩ ⟨⟨hkey, habove⟩, hrow⟩
    obtain ⟨e', t', hpress, hrest⟩ := pressKey_shows hok h hfits hkey hrow habove
    exact ⟨e', t', hpress, hrest⟩
  · rintro s ⟨e, t, rfl, -, -, h⟩
    exact h

/-! ## The margin -/

/-- A key without ctrl and alt. -/
def charKey (ch : UInt8) : Input := ⟨⟨.keyChar, ch, false, false⟩, ⟨List.replicate lineMax 0, List.length_replicate⟩, []⟩

/-- An editor before the first round. -/
def emptyEditor : Editor := .start ⟨List.replicate lineMax 0, List.length_replicate⟩

theorem emptyEditor_reached : emptyEditor.Reached := ⟨_, [], [], rfl⟩

/-- The prompt of the root directory at the top of a screen. -/
theorem rootPrompt_isSome : ((prompt [47]).foldlM perform (.init 12 4)).isSome = true := by decide

def rootPrompt : Terminal := ((prompt [47]).foldlM perform (.init 12 4)).get rootPrompt_isSome

/-- A character in the row of the prompt comes and goes. -/
theorem screen_shows_line_root : ∃ t₁, (prompt [47]).foldlM perform (.init 12 4) = some t₁ ∧
    Always screenStep (ShowsLine 0 [47]) (some (emptyEditor, t₁)) [charKey 97, charKey 8] := by
  obtain ⟨t₁, hprompt, hall⟩ := screen_shows_line emptyEditor_reached rfl
    (Terminal.fresh_init (show (1 : Int) ≤ 12 by decide) (show (1 : Int) ≤ 4 by decide))
    (show ∀ ch ∈ [47], Prints ch from prints_of_all rfl) (by decide)
  have ht : t₁ = rootPrompt := by
    rw [rootPrompt]
    simp only [hprompt, Option.get_some]
  subst ht
  exact ⟨_, hprompt, hall _ (by decide +kernel) (by decide +kernel)⟩

/-- Two characters up to the margin, and a backspace. -/
def marginKeys : List Input := [charKey 97, charKey 98, charKey 8]

/-- The second character stays on the screen. -/
theorem marginKeys_shown : ¬ ShowsLine 0 [47] (marginKeys.foldl screenStep (some (emptyEditor, rootPrompt))) := by
  have hseen : (marginKeys.foldl screenStep (some (emptyEditor, rootPrompt))).map
      (fun s => (s.1.line, s.2.rows * s.2.cols, (s.2.cellAt 11).ch)) = some ([97], 48, 98) := by
    decide +kernel
  generalize marginKeys.foldl screenStep (some (emptyEditor, rootPrompt)) = s at hseen
  obtain ⟨⟨e, t⟩, rfl, heq⟩ := Option.map_eq_some_iff.mp hseen
  obtain ⟨hline, hsize, hch⟩ : e.line = [97] ∧ t.rows * t.cols = 48 ∧ (t.cellAt 11).ch = 98 := by
    simpa only [Prod.mk.injEq] using heq
  intro h
  rw [ShowsLine, hline] at h
  have hcell := h.cells 11 (by rw [hsize]; decide)
  rw [Int.zero_add, Nat.cast_ofNat, hch] at hcell
  exact absurd hcell (by decide)

/-- A backspace at the beginning of a row, behind two characters of which the second one filled the row
    above. -/
theorem backspace_at_margin : ¬ ∀ (e : Editor) (t t₁ : Terminal) (path : List UInt8) (inputs : List Input),
    e.Reached → e.len = 0 → 2 ≤ t.cols → t.Fresh → (∀ ch ∈ path, Prints ch) →
    t.Fits t.pos (promptText path) → (prompt path).foldlM perform t = some t₁ →
    Admitted screenStep (Entered t.pos path) (some (e, t₁)) inputs →
    Always screenStep (ShowsLine t.pos path) (some (e, t₁)) inputs := by
  intro h
  have hall := h emptyEditor (.init 12 4) rootPrompt [47] marginKeys
    emptyEditor_reached rfl (by decide) (Terminal.fresh_init (by decide) (by decide)) (prints_of_all rfl) (by decide)
    (Option.some_get _).symm (by decide +kernel)
  have hno := marginKeys_shown
  generalize marginKeys = keys at hall hno
  exact hno hall.last

end ChocoOs.Shell
