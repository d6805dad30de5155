import ChocoOs.Shell.LineEditor

/-!
# Runs of the line editor

The line stays in its buffer, and the history keeps the last lines that were submitted.
-/

namespace ChocoOs.Shell
open ProgLib Keyboard

/-! ## Runs -/

/-- What `buf` may hold. -/
abbrev LineBuf := { b : List UInt8 // b.length = lineMax }

/-- What a round gets: a key, and what a command leaves in the line and makes of the path. -/
structure Input where
  ev : KeyEvent
  left : LineBuf
  path : List UInt8

/-- The line that a round submits. -/
def Editor.submitted (e : Editor) (ev : KeyEvent) : List (List UInt8) :=
  if ev.code = .keyChar ∧ ev.ctrl = false ∧ ev.ch = 10 ∧ 0 < e.len then [e.line] else []

/-- The editor before the first round. -/
def Editor.start (buf : LineBuf) : Editor :=
  ⟨buf.1, 0, -1, List.replicate historyMax (List.replicate lineMax 0), 0⟩

/-- One round, with the lines that have been submitted. -/
def editRound (s : Editor × List (List UInt8)) (i : Input) : Option (Editor × List (List UInt8)) :=
  (s.1.keyRound i.ev i.left.1 i.path).map fun r => (r.1, s.2 ++ s.1.submitted i.ev)

/-! ## Arrays -/

/-- An array of a line that holds a C string. -/
def Row (a : List UInt8) : Prop := a.length = lineMax ∧ 0 ∈ a

theorem poke_eq {α : Type} {a : List α} {i : Nat} (h : i < a.length) (x : α) :
    poke a i x = some (a.set i x) := by
  rw [poke, if_pos ⟨Int.natCast_nonneg i, Int.ofNat_lt.mpr h⟩, Int.toNat_natCast]

theorem peek_eq {α : Type} (a : List α) (i : Nat) : peek a i = a[i]? := by
  rw [peek, if_pos (Int.natCast_nonneg i), Int.toNat_natCast]

theorem rowText_append {text : List UInt8} (h : 0 ∉ text) (rest : List UInt8) :
    rowText (text ++ 0 :: rest) = text := by
  have hne : ∀ ch ∈ text, (ch != 0) = true := by
    intro ch hch
    rw [bne_iff_ne]
    rintro rfl
    exact h hch
  rw [rowText, List.takeWhile_append_of_pos hne, List.takeWhile_cons_of_neg (by decide), List.append_nil]

theorem zero_notMem_rowText (a : List UInt8) : 0 ∉ rowText a := by
  intro h
  exact absurd (List.mem_takeWhile_imp h) (by decide)

theorem readText_eq {a : List UInt8} (h : Row a) : readText a = some (rowText a) := if_pos h.2

theorem length_rowText {a : List UInt8} (h : Row a) : (rowText a).length < lineMax := by
  have hle := (List.takeWhile_prefix (· != 0) (l := a)).length_le
  rw [h.1] at hle
  apply Nat.lt_of_le_of_ne hle
  intro heq
  have hall := (List.takeWhile_prefix (· != 0) (l := a)).eq_of_length (heq.trans h.1.symm)
  have hzero : 0 ∈ rowText a := by
    rw [rowText, hall]
    exact h.2
  exact zero_notMem_rowText a hzero

/-- A text is copied to an array that has room for it. -/
theorem writeText_eq {a text : List UInt8} (ha : a.length = lineMax) (hlen : text.length < lineMax)
    (hzero : 0 ∉ text) : ∃ b, writeText a text = some b ∧ Row b ∧ rowText b = text := by
  refine ⟨text ++ 0 :: a.drop (text.length + 1), if_pos (by rw [ha]; exact hlen), ⟨?_, ?_⟩,
    rowText_append hzero _⟩
  · rw [List.length_append, List.length_cons, List.length_drop]
    omega
  · exact List.mem_append_right _ (List.mem_cons_self ..)

/-- The array begins with its text. -/
theorem take_rowText (a : List UInt8) : a.take (rowText a).length = rowText a :=
  (List.prefix_iff_eq_take.mp (List.takeWhile_prefix _)).symm

/-! ## The history -/

/-- The arrays of the history hold these entries. -/
structure Holds (history : List (List UInt8)) (count : Int) (es : List (List UInt8)) : Prop where
  length : history.length = historyMax
  rows : ∀ row ∈ history, Row row
  count : count = es.length
  texts : (history.take es.length).map rowText = es

theorem copyRow_eq {history : List (List UInt8)} (hrows : ∀ row ∈ history, Row row) (dst src : Nat)
    (hdst : dst < history.length) (hsrc : src < history.length) :
    ∃ row, copyRow history dst src = some (history.set dst row) ∧ Row row ∧
      rowText row = rowText history[src] := by
  have hfrom := hrows _ (List.getElem_mem hsrc)
  obtain ⟨row, hwrite, hrow, htext⟩ := writeText_eq (hrows _ (List.getElem_mem hdst)).1
    (length_rowText hfrom) (zero_notMem_rowText _)
  refine ⟨row, ?_, hrow, htext⟩
  rw [copyRow, peek_eq, peek_eq, List.getElem?_eq_getElem hsrc, List.getElem?_eq_getElem hdst]
  simp only [Option.bind_eq_bind, Option.bind_some, readText_eq hfrom, hwrite, poke_eq hdst]

/-- The loop has copied the first `k` entries down. -/
theorem shiftHistory_prefix {history : List (List UInt8)} (hlen : history.length = historyMax)
    (hrows : ∀ row ∈ history, Row row) {k : Nat} (hk : k ≤ historyMax - 1) :
    ∃ h, (List.range' 1 k).foldlM (fun h (i : Nat) => copyRow h ((i : Int) - 1) i) history = some h ∧
      h.length = historyMax ∧ (∀ row ∈ h, Row row) ∧
      ∀ j, (h.map rowText)[j]? = (history.map rowText)[if j < k then j + 1 else j]? := by
  induction k with
  | zero => exact ⟨history, rfl, hlen, hrows, fun j => rfl⟩
  | succ k ih =>
    obtain ⟨h, hfold, hlen', hrows', htexts⟩ := ih (Nat.le_of_succ_le hk)
    have h16 : historyMax = 16 := rfl
    obtain ⟨row, hcopy, hrow, htext⟩ := copyRow_eq hrows' k (k + 1) (by omega) (by omega)
    have hcopy' : copyRow h (((1 + k : Nat) : Int) - 1) ((1 + k : Nat) : Int) = some (h.set k row) := by
      rw [← hcopy]
      congr 1 <;> omega
    refine ⟨h.set k row, ?_, by rw [List.length_set, hlen'], ?_, ?_⟩
    · rw [List.range'_1_concat, List.foldlM_append, hfold]
      simp only [Option.bind_eq_bind, Option.bind_some, List.foldlM_cons, List.foldlM_nil, hcopy',
        Option.pure_def]
    · intro r hr
      rcases List.mem_or_eq_of_mem_set hr with hr | rfl
      · exact hrows' r hr
      · exact hrow
    · intro j
      rw [List.map_set, List.getElem?_set, List.length_map]
      by_cases hj : k = j
      · have hsrc := htexts (k + 1)
        rw [if_neg (by omega), List.getElem?_map, List.getElem?_eq_getElem (by omega)] at hsrc
        rw [if_pos hj, if_pos (by omega), htext, ← hj, if_pos (Nat.lt_succ_self k), ← hsrc]
        rfl
      · rw [if_neg hj, htexts]
        congr 1
        split <;> split <;> omega

theorem shiftHistory_eq {history : List (List UInt8)} (hlen : history.length = historyMax)
    (hrows : ∀ row ∈ history, Row row) : ∃ h, shiftHistory history = some h ∧
      h.length = historyMax ∧ (∀ row ∈ h, Row row) ∧
      (h.take (historyMax - 1)).map rowText = (history.map rowText).tail := by
  obtain ⟨h, hfold, hlen', hrows', htexts⟩ := shiftHistory_prefix hlen hrows (Nat.le_refl _)
  refine ⟨h, hfold, hlen', hrows', List.ext_getElem? fun j => ?_⟩
  rw [List.map_take, List.getElem?_take, htexts, List.getElem?_tail]
  by_cases hj : j < historyMax - 1
  · rw [if_pos hj, if_pos hj]
  · rw [if_neg hj, eq_comm, List.getElem?_eq_none]
    rw [List.length_map, hlen]
    omega

namespace Holds

variable {history : List (List UInt8)} {count : Int} {es : List (List UInt8)}

theorem length_le (h : Holds history count es) : es.length ≤ historyMax := by
  have hlen := congrArg List.length h.texts
  rw [List.length_map, List.length_take, h.length] at hlen
  omega

/-- An entry is read from its array. -/
theorem read (h : Holds history count es) {i : Nat} (hi : i < es.length) :
    ∃ row, peek history i = some row ∧ readText row = some es[i] := by
  have hlt : i < history.length := by
    rw [h.length]
    exact Nat.lt_of_lt_of_le hi h.length_le
  refine ⟨history[i], by rw [peek_eq, List.getElem?_eq_getElem hlt], ?_⟩
  have htext : es[i]? = some (rowText history[i]) := by
    rw [← h.texts, List.getElem?_map, List.getElem?_take, if_pos hi, List.getElem?_eq_getElem hlt]
    rfl
  rw [readText_eq (h.rows _ (List.getElem_mem hlt)), ← htext, List.getElem?_eq_getElem hi]

theorem length_lt (h : Holds history count es) : ∀ t ∈ es, t.length < lineMax := by
  intro t ht
  rw [← h.texts] at ht
  obtain ⟨row, hrow, rfl⟩ := List.mem_map.mp ht
  exact length_rowText (h.rows row (List.mem_of_mem_take hrow))

theorem zero_notMem (h : Holds history count es) : ∀ t ∈ es, 0 ∉ t := by
  intro t ht
  rw [← h.texts] at ht
  obtain ⟨row, -, rfl⟩ := List.mem_map.mp ht
  exact zero_notMem_rowText row

/-- A text goes behind the entries. -/
theorem append (h : Holds history count es) (hroom : es.length < historyMax) {row : List UInt8}
    (hrow : Row row) : Holds (history.set es.length row) (count + 1) (es ++ [rowText row]) := by
  refine ⟨by rw [List.length_set, h.length], ?_, ?_, ?_⟩
  · intro r hr
    rcases List.mem_or_eq_of_mem_set hr with hr | rfl
    · exact h.rows r hr
    · exact hrow
  · rw [h.count, List.length_append, List.length_singleton, Int.natCast_add]
    rfl
  · have hlt : es.length < history.length := by rw [h.length]; exact hroom
    have htake := h.texts
    rw [List.length_append, List.length_singleton, List.take_succ_eq_append_getElem (by rwa [List.length_set]),
      List.getElem_set_self, List.take_set_of_le (Nat.le_refl _), List.map_append, htake]
    rfl

end Holds

section

variable {e : Editor} {es : List (List UInt8)}

theorem repeats_eq (h : Holds e.history e.historyCount es) {text : List UInt8} (hzero : 0 ∉ text) :
    e.repeats text = some (decide (es.getLast? = some text)) := by
  rw [Editor.repeats, h.count]
  rcases List.eq_nil_or_concat' es with rfl | ⟨older, newest, rfl⟩
  · rfl
  · have hlast : ((older ++ [newest]).length : Int) - 1 = (older.length : Nat) := by
      rw [List.length_append, List.length_singleton]
      omega
    obtain ⟨row, hpeek, hread⟩ := h.read (i := older.length) (by simp)
    have hstrcmp : strcmp newest text = 0 ↔ newest = text :=
      (strcmp_eq_zero (s := ⟨newest, h.zero_notMem _ (by simp)⟩) (t := ⟨text, hzero⟩)).trans Subtype.ext_iff
    rw [if_neg (by rw [List.length_append, List.length_singleton]; omega), hlast, hpeek]
    rw [List.getElem_concat_length rfl] at hread
    simp only [Option.bind_eq_bind, Option.bind_some, hread, List.getLast?_concat, Option.some_inj, hstrcmp]
    rfl

/-- A full history loses its oldest entry. -/
theorem makeRoom_eq (h : Holds e.history e.historyCount es) : ∃ history count,
    e.makeRoom = some { e with history := history, historyCount := count } ∧
      Holds history count (if es.length = historyMax then es.tail else es) := by
  rw [Editor.makeRoom, h.count]
  by_cases hfull : es.length = historyMax
  · obtain ⟨history, hshift, hlen, hrows, htexts⟩ := shiftHistory_eq h.length h.rows
    refine ⟨history, (es.length : Int) - 1, ?_, ?_⟩
    · rw [if_pos (by rw [hfull]), hshift]
      rfl
    · rw [if_pos hfull]
      refine ⟨hlen, hrows, ?_, ?_⟩
      · rw [List.length_tail, hfull]
        rfl
      · have hall : history.length = es.length := hlen.trans hfull.symm
        have hes := h.texts
        rw [List.take_of_length_le (by rw [h.length, hfull])] at hes
        rw [List.length_tail, hfull, htexts, hes]
  · refine ⟨e.history, e.historyCount, ?_, ?_⟩
    · rw [if_neg (by omega)]
    · rw [if_neg hfull]
      exact h

/-- A submitted line is recorded. -/
theorem remember_eq (h : Holds e.history e.historyCount es) {text : List UInt8}
    (hlen : text.length < lineMax) (hzero : 0 ∉ text) : ∃ history count,
    e.remember text = some { e with history := history, historyCount := count } ∧
      Holds history count (record historyMax es text) := by
  rw [Editor.remember, repeats_eq h hzero, record]
  by_cases hrep : es.getLast? = some text
  · refine ⟨e.history, e.historyCount, ?_, ?_⟩
    · rw [decide_eq_true hrep]
      rfl
    · rw [if_pos hrep]
      exact h
  · obtain ⟨history, count, hroom, hholds⟩ := makeRoom_eq h
    generalize hes : (if es.length = historyMax then es.tail else es) = es' at hholds
    have hlt : es'.length < historyMax := by
      rw [← hes]
      have hle := h.length_le
      have h16 : historyMax = 16 := rfl
      split
      · rw [List.length_tail]
        omega
      · omega
    have hin : es'.length < history.length := by
      rw [hholds.length]
      exact hlt
    obtain ⟨row, hwrite, hrow, htext⟩ :=
      writeText_eq (hholds.rows _ (List.getElem_mem hin)).1 hlen hzero
    refine ⟨history.set es'.length row, count + 1, ?_, ?_⟩
    · rw [decide_eq_false hrep]
      simp only [Option.bind_eq_bind, Option.bind_some, Bool.false_eq_true, if_false, hroom, hholds.count,
        peek_eq, List.getElem?_eq_getElem hin, hwrite, poke_eq hin]
      rfl
    · rw [if_neg hrep, ← htext]
      exact hholds.append hlt hrow

end

/-! ## One round -/

/-- A character that the editor takes. -/
def Printable (ch : UInt8) : Prop := 32 ≤ ch ∧ ch < 127

instance (ch : UInt8) : Decidable (Printable ch) := inferInstanceAs (Decidable (_ ∧ _))

/-- What holds between the rounds. -/
structure Editor.Ok (e : Editor) (lines : List (List UInt8)) : Prop where
  buf : e.buf.length = lineMax
  len : 0 ≤ e.len ∧ e.len < lineMax
  line : ∀ ch ∈ e.line, Printable ch
  holds : Holds e.history e.historyCount (recent historyMax lines)
  printable : ∀ t ∈ lines, ∀ ch ∈ t, Printable ch
  histPos : -1 ≤ e.histPos ∧ e.histPos < e.historyCount

/-- The entry at a place, counted from the newest one; -1 is the empty line. -/
def Recalled (es : List (List UInt8)) (pos : Int) (line : List UInt8) : Prop :=
  if pos = -1 then line = [] else es.reverse[pos.toNat]? = some line

theorem zero_notMem_of_printable {text : List UInt8} (h : ∀ ch ∈ text, Printable ch) : 0 ∉ text := by
  intro h0
  exact absurd (h 0 h0).1 (by decide)

namespace Editor.Ok

variable {e : Editor} {lines : List (List UInt8)}

theorem length_line (h : e.Ok lines) : (e.line.length : Int) = e.len := by
  have hlen := h.len
  rw [Editor.line, List.length_take, h.buf]
  omega

/-- The line with its terminator. -/
theorem terminate (h : e.Ok lines) :
    ∃ buf, poke e.buf e.len 0 = some buf ∧ Row buf ∧ rowText buf = e.line ∧ buf.take e.len.toNat = e.line := by
  obtain ⟨n, hn⟩ := Int.eq_ofNat_of_zero_le h.len.1
  have hlt : n < e.buf.length := by
    have hlen := h.len.2
    rw [h.buf]
    omega
  have hline : e.line = e.buf.take n := by rw [Editor.line, hn, Int.toNat_natCast]
  have hset : e.buf.set n 0 = e.line ++ 0 :: e.buf.drop (n + 1) := by
    rw [hline, List.set_eq_take_append_cons_drop, if_pos hlt]
  have hzero := zero_notMem_of_printable h.line
  refine ⟨e.buf.set n 0, by rw [hn, poke_eq hlt], ⟨?_, ?_⟩, ?_, ?_⟩
  · rw [List.length_set, h.buf]
  · rw [hset]
    exact List.mem_append_right _ (List.mem_cons_self ..)
  · rw [hset, rowText_append hzero]
  · rw [hn, Int.toNat_natCast, hline, List.take_set_of_le (Nat.le_refl n)]

/-- An arrow key shows an entry of the history, or the empty line. -/
theorem arrow_eq (h : e.Ok lines) (hcount : e.historyCount ≠ 0) (code : KeyCode) :
    ∃ buf text pos, e.arrow code = some ({ e with buf := buf, len := (text.length : Nat), histPos := pos },
        redrawLine text e.len) ∧
      Row buf ∧ rowText buf = text ∧ (-1 ≤ pos ∧ pos < e.historyCount) ∧
      Recalled (recent historyMax lines) pos text := by
  obtain ⟨hlow, hhigh⟩ := h.histPos
  generalize hpos : (if code = .keyUp ∧ e.histPos + 1 < e.historyCount then e.histPos + 1
    else if code = .keyDown ∧ 0 ≤ e.histPos then e.histPos - 1 else e.histPos) = pos
  have hbounds : -1 ≤ pos ∧ pos < e.historyCount := by
    rw [← hpos]
    split
    · omega
    · split <;> omega
  by_cases hnew : pos < 0
  · have hneg : pos = -1 := by omega
    have hlt : 0 < e.buf.length := by
      rw [h.buf]
      decide
    have hpoke : poke e.buf (0 : Int) 0 = some (e.buf.set 0 0) := poke_eq hlt 0
    have hset : e.buf.set 0 0 = 0 :: e.buf.drop 1 := by
      rw [List.set_eq_take_append_cons_drop, if_pos hlt]
      rfl
    have hrow : Row (e.buf.set 0 0) := by
      refine ⟨by rw [List.length_set, h.buf], ?_⟩
      rw [hset]
      exact List.mem_cons_self ..
    have htext : rowText (e.buf.set 0 0) = [] := by
      rw [hset]
      rfl
    refine ⟨e.buf.set 0 0, [], pos, ?_, hrow, htext, hbounds, ?_⟩
    · rw [Editor.arrow, if_neg hcount]
      simp only [hpos, if_pos hnew, hpoke, Option.bind_eq_bind, Option.bind_some, readText_eq hrow, htext]
      rfl
    · rw [Recalled, if_pos hneg]
  · have hes := h.holds.count
    obtain ⟨n, hn⟩ := Int.eq_ofNat_of_zero_le (Int.not_lt.mp hnew)
    generalize hrecent : recent historyMax lines = es at hes
    have hholds := h.holds
    rw [hrecent] at hholds
    have hi : es.length - 1 - n < es.length := by omega
    have hindex : e.historyCount - 1 - pos = (es.length - 1 - n : Nat) := by omega
    obtain ⟨row, hpeek, hread⟩ := hholds.read hi
    have hmem : es[es.length - 1 - n] ∈ es := List.getElem_mem hi
    have hlen := hholds.length_lt _ hmem
    obtain ⟨buf, hwrite, hrow, htext⟩ := writeText_eq h.buf hlen (hholds.zero_notMem _ hmem)
    refine ⟨buf, _, pos, ?_, hrow, htext, hbounds, ?_⟩
    · rw [Editor.arrow, if_neg hcount]
      simp only [hpos, if_neg hnew, hindex, hpeek, hread, Option.bind_eq_bind, Option.bind_some,
        List.take_of_length_le (Nat.le_sub_one_of_lt hlen), hwrite, readText_eq hrow, htext]
      rfl
    · rw [Recalled, if_neg (by omega), hn, Int.toNat_natCast, List.getElem?_reverse (by omega),
        List.getElem?_eq_getElem hi]

theorem printable_recalled (h : e.Ok lines) {pos : Int} {text : List UInt8}
    (hrec : Recalled (recent historyMax lines) pos text) : ∀ ch ∈ text, Printable ch := by
  rw [Recalled] at hrec
  split at hrec
  · intro ch hch
    rw [hrec] at hch
    exact absurd hch List.not_mem_nil
  · have hmem := List.mem_reverse.mp (List.mem_of_getElem? hrec)
    exact h.printable text (mem_of_mem_recent hmem)

/-- The editor with another line. -/
theorem replace (h : e.Ok lines) {buf : List UInt8} {pos : Int} (hrow : Row buf)
    (hprint : ∀ ch ∈ rowText buf, Printable ch) (hpos : -1 ≤ pos ∧ pos < e.historyCount) :
    Editor.Ok { e with buf := buf, len := ((rowText buf).length : Nat), histPos := pos } lines := by
  refine ⟨hrow.1, ⟨Int.natCast_nonneg _, Int.ofNat_lt.mpr (length_rowText hrow)⟩, ?_, h.holds, h.printable, hpos⟩
  intro ch hch
  rw [Editor.line, Int.toNat_natCast, take_rowText] at hch
  exact hprint ch hch

theorem empty_len : 0 ≤ (0 : Int) ∧ (0 : Int) < (lineMax : Nat) := by decide

/-- The editor with an empty line. -/
theorem reset (h : e.Ok lines) : Editor.Ok { e with len := 0, histPos := -1 } lines := by
  have hcount := h.holds.count
  refine ⟨h.buf, empty_len, fun ch hch => absurd hch List.not_mem_nil, h.holds, h.printable, ?_⟩
  show -1 ≤ (-1 : Int) ∧ -1 < e.historyCount
  omega

/-- The enter key records the line and begins another one. -/
theorem submit_ok (h : e.Ok lines) {left : List UInt8} (hleft : left.length = lineMax) (path : List UInt8) :
    ∃ e' out, e.submit left path = some (e', out) ∧
      e'.Ok (lines ++ if 0 < e.len then [e.line] else []) := by
  obtain ⟨buf, hpoke, hrow, htext, htake⟩ := h.terminate
  have hbuf : Editor.Ok { e with buf := buf } lines := by
    refine ⟨hrow.1, h.len, ?_, h.holds, h.printable, h.histPos⟩
    intro ch hch
    apply h.line ch
    rw [← htake]
    exact hch
  rw [Editor.submit, hpoke]
  by_cases hlen : 0 < e.len
  · have hline : e.line.length < lineMax := by
      rw [← htext]
      exact length_rowText hrow
    obtain ⟨history, count, hrem, hholds⟩ :=
      remember_eq hbuf.holds hline (zero_notMem_of_printable h.line)
    rw [record_recent (by decide)] at hholds
    rw [if_pos hlen]
    refine ⟨⟨left, 0, -1, history, count⟩, .print [10] :: .command e.line :: prompt path, ?_, ?_⟩
    · simp only [Option.bind_eq_bind, Option.bind_some, if_pos hlen, readText_eq hrow, htext, hrem]
      rfl
    · have hcount := hholds.count
      refine ⟨hleft, empty_len, fun ch hch => absurd hch List.not_mem_nil, hholds, ?_, ?_⟩
      · intro t ht
        rcases List.mem_append.mp ht with ht | ht
        · exact h.printable t ht
        · rw [List.mem_singleton.mp ht]
          exact h.line
      · show -1 ≤ (-1 : Int) ∧ -1 < count
        omega
  · rw [if_neg hlen, List.append_nil]
    refine ⟨{ e with buf := buf, len := 0, histPos := -1 }, .print [10] :: prompt path, ?_, hbuf.reset⟩
    simp only [Option.bind_eq_bind, Option.bind_some, if_neg hlen]
    rfl

/-- A character goes behind the line. -/
theorem type (h : e.Ok lines) (hroom : e.len < (lineMax : Int) - 1) {ch : UInt8} (hch : Printable ch) :
    ∃ buf, poke e.buf e.len ch = some buf ∧
      Editor.line { e with buf := buf, len := e.len + 1 } = e.line ++ [ch] ∧
      Editor.Ok { e with buf := buf, len := e.len + 1 } lines := by
  obtain ⟨n, hn⟩ := Int.eq_ofNat_of_zero_le h.len.1
  have hlt : n < e.buf.length := by
    rw [h.buf]
    omega
  have hline : Editor.line { e with buf := e.buf.set n ch, len := e.len + 1 } = e.line ++ [ch] := by
    show (e.buf.set n ch).take (e.len + 1).toNat = e.buf.take e.len.toNat ++ [ch]
    rw [hn, Int.toNat_natCast, show ((n : Int) + 1).toNat = n + 1 from rfl,
      List.take_succ_eq_append_getElem (by rwa [List.length_set]), List.getElem_set_self,
      List.take_set_of_le (Nat.le_refl n)]
  refine ⟨e.buf.set n ch, by rw [hn, poke_eq hlt], hline, ?_⟩
  refine ⟨by rw [List.length_set, h.buf], ?_, ?_, h.holds, h.printable, h.histPos⟩
  · show 0 ≤ e.len + 1 ∧ e.len + 1 < (lineMax : Int)
    have hlen := h.len.1
    omega
  · intro x hx
    rw [hline] at hx
    rcases List.mem_append.mp hx with hx | hx
    · exact h.line x hx
    · rw [List.mem_singleton.mp hx]
      exact hch

/-- The last character goes. -/
theorem erase (h : e.Ok lines) (hlen : 0 < e.len) :
    Editor.line { e with len := e.len - 1 } = e.line.dropLast ∧
      Editor.Ok { e with len := e.len - 1 } lines := by
  obtain ⟨n, hn⟩ := Int.eq_ofNat_of_zero_le h.len.1
  have hbound := h.len.2
  have hline : Editor.line { e with len := e.len - 1 } = e.line.dropLast := by
    show e.buf.take (e.len - 1).toNat = (e.buf.take e.len.toNat).dropLast
    rw [List.dropLast_take (by rw [h.buf]; omega)]
    congr 1
    omega
  refine ⟨hline, h.buf, ?_, ?_, h.holds, h.printable, h.histPos⟩
  · show 0 ≤ e.len - 1 ∧ e.len - 1 < (lineMax : Int)
    omega
  · intro x hx
    rw [hline] at hx
    exact h.line x (List.mem_of_mem_dropLast hx)

end Editor.Ok

/-- What a key does when it is neither an arrow nor pressed with ctrl. -/
theorem keyRound_plain {ev : KeyEvent} (hcode : ev.code = .keyChar) (hctrl : ev.ctrl = false) (e : Editor)
    (left path : List UInt8) : e.keyRound ev left path =
      if ev.ch = 10 then e.submit left path
      else if ev.ch = 8 then
        if 0 < e.len then some ({ e with len := e.len - 1 }, [.echo 8]) else some (e, [])
      else if e.len < (lineMax : Int) - 1 ∧ Printable ev.ch then
        (poke e.buf e.len ev.ch).map fun buf => ({ e with buf := buf, len := e.len + 1 }, [.echo ev.ch])
      else some (e, []) := by
  have harrow : ¬ (ev.code = .keyUp ∨ ev.code = .keyDown) := by
    rw [hcode]
    decide
  rw [Editor.keyRound, if_neg harrow, if_neg (not_not.mpr hcode)]
  simp only [hctrl, Bool.false_eq_true, false_and, if_false]
  cases poke e.buf e.len ev.ch <;> rfl

/-- A key that is not the enter key submits nothing. -/
theorem submitted_of_not {e : Editor} {ev : KeyEvent}
    (h : ¬ (ev.code = .keyChar ∧ ev.ctrl = false ∧ ev.ch = 10)) : e.submitted ev = [] :=
  if_neg fun hyp => h ⟨hyp.1, hyp.2.1, hyp.2.2.1⟩

/-- A round keeps the invariant. -/
theorem keyRound_ok {e : Editor} {lines : List (List UInt8)} (h : e.Ok lines) (ev : KeyEvent)
    {left : List UInt8} (hleft : left.length = lineMax) (path : List UInt8) :
    ∃ e' out, e.keyRound ev left path = some (e', out) ∧ e'.Ok (lines ++ e.submitted ev) := by
  by_cases harrow : ev.code = .keyUp ∨ ev.code = .keyDown
  · have hnot : ¬ (ev.code = .keyChar ∧ ev.ctrl = false ∧ ev.ch = 10) := by
      rintro ⟨hcode, -⟩
      rw [hcode] at harrow
      exact absurd harrow (by decide)
    rw [Editor.keyRound, if_pos harrow, submitted_of_not hnot, List.append_nil]
    by_cases hcount : e.historyCount = 0
    · refine ⟨e, [], ?_, h⟩
      rw [Editor.arrow, if_pos hcount]
      rfl
    · obtain ⟨buf, text, pos, hrecall, hrow, htext, hpos, hrec⟩ := h.arrow_eq hcount ev.code
      have hprint := h.printable_recalled hrec
      rw [← htext] at hprint hrecall
      exact ⟨_, _, hrecall, h.replace hrow hprint hpos⟩
  by_cases hcode : ev.code = .keyChar
  · by_cases hctrl : ev.ctrl = false
    · rw [keyRound_plain hcode hctrl]
      by_cases henter : ev.ch = 10
      · have hsub : e.submitted ev = if 0 < e.len then [e.line] else [] := by
          rw [Editor.submitted]
          simp only [hcode, hctrl, henter, true_and]
        rw [if_pos henter, hsub]
        exact h.submit_ok hleft path
      · rw [if_neg henter, submitted_of_not fun hyp => henter hyp.2.2, List.append_nil]
        split
        · split
          · next hlen => exact ⟨_, _, rfl, (h.erase hlen).2⟩
          · exact ⟨e, [], rfl, h⟩
        · split
          · next hroom =>
            obtain ⟨buf, hpoke, -, hok⟩ := h.type hroom.1 hroom.2
            rw [hpoke]
            exact ⟨_, _, rfl, hok⟩
          · exact ⟨e, [], rfl, h⟩
    · have htrue : ev.ctrl = true := Bool.not_eq_false _ ▸ hctrl
      rw [submitted_of_not fun hyp => hctrl hyp.2.1, List.append_nil, Editor.keyRound, if_neg harrow,
        if_neg (not_not.mpr hcode)]
      simp only [htrue, true_and, if_true]
      split
      · obtain ⟨buf, hpoke, hrow, htext, htake⟩ := h.terminate
        refine ⟨{ e with buf := buf }, .clear :: prompt path ++ [.print e.line], ?_, hrow.1, h.len, ?_, h.holds,
          h.printable, h.histPos⟩
        · simp only [hpoke, Option.bind_eq_bind, Option.bind_some, readText_eq hrow, htext]
          rfl
        · intro ch hch
          apply h.line ch
          rw [← htake]
          exact hch
      · split
        · exact ⟨_, _, rfl, h.reset⟩
        · exact ⟨e, [], rfl, h⟩
  · rw [submitted_of_not fun hyp => hcode hyp.1, List.append_nil, Editor.keyRound, if_neg harrow,
      if_pos hcode]
    exact ⟨e, [], rfl, h⟩

/-! ## A run -/

theorem Editor.Ok.start (buf : LineBuf) : (Editor.start buf).Ok [] := by
  refine ⟨buf.2, empty_len, fun ch hch => absurd hch List.not_mem_nil, ⟨List.length_replicate, ?_, rfl, rfl⟩,
    fun t ht => absurd ht List.not_mem_nil, by show -1 ≤ (-1 : Int) ∧ (-1 : Int) < 0; decide⟩
  intro row hrow
  rw [List.eq_of_mem_replicate hrow]
  exact ⟨List.length_replicate, List.mem_replicate.mpr ⟨by decide, rfl⟩⟩

theorem editRound_ok {e : Editor} {lines : List (List UInt8)} (h : e.Ok lines) (i : Input) :
    ∃ e', editRound (e, lines) i = some (e', lines ++ e.submitted i.ev) ∧
      e'.Ok (lines ++ e.submitted i.ev) := by
  obtain ⟨e', out, hround, hok⟩ := keyRound_ok h i.ev i.left.2 i.path
  refine ⟨e', ?_, hok⟩
  rw [editRound, hround]
  rfl

theorem editRounds_ok (inputs : List Input) : ∀ {e : Editor} {lines : List (List UInt8)}, e.Ok lines →
    ∃ e' lines', inputs.foldlM editRound (e, lines) = some (e', lines') ∧ e'.Ok lines' := by
  induction inputs with
  | nil => exact fun h => ⟨_, _, rfl, h⟩
  | cons i inputs ih =>
    intro e lines h
    obtain ⟨e', hround, hok⟩ := editRound_ok h i
    obtain ⟨e'', lines'', hrun, hok'⟩ := ih hok
    refine ⟨e'', lines'', ?_, hok'⟩
    rw [List.foldlM_cons, hround]
    exact hrun

/-- After an arrow key. -/
theorem editRound_arrow {e e' : Editor} {lines lines' : List (List UInt8)} (h : e.Ok lines) {i : Input}
    (harrow : i.ev.code = .keyUp ∨ i.ev.code = .keyDown) (hround : editRound (e, lines) i = some (e', lines'))
    (hcount : e'.historyCount ≠ 0) : Recalled e'.entries e'.histPos e'.line := by
  rw [editRound, Editor.keyRound, if_pos harrow] at hround
  by_cases hzero : e.historyCount = 0
  · rw [Editor.arrow, if_pos hzero] at hround
    cases hround
    exact absurd hzero hcount
  · obtain ⟨buf, text, pos, hrecall, -, htext, -, hrec⟩ := h.arrow_eq hzero i.ev.code
    have hentries : e.entries = recent historyMax lines := by
      rw [Editor.entries, h.holds.count, Int.toNat_natCast, h.holds.texts]
    have hline : Editor.line { e with buf := buf, len := (text.length : Nat), histPos := pos } = text := by
      rw [← htext]
      exact take_rowText buf
    rw [hrecall] at hround
    cases hround
    rw [hline]
    exact hentries ▸ hrec

/-- The line stays in its buffer, the history keeps the last lines that were submitted, and an arrow key
    shows the entry at its place. -/
theorem line_editor (buf : LineBuf) (inputs : List Input) :
    ∃ e lines, inputs.foldlM editRound (.start buf, []) = some (e, lines) ∧
      (0 ≤ e.len ∧ e.len ≤ lineMax - 1) ∧
      (0 ≤ e.historyCount ∧ e.historyCount ≤ historyMax) ∧
      (-1 ≤ e.histPos ∧ e.histPos ≤ e.historyCount - 1) ∧
      e.entries = (lines.destutter (· ≠ ·)).rtake historyMax ∧
      ∀ i ∈ inputs.getLast?, i.ev.code = .keyUp ∨ i.ev.code = .keyDown → e.historyCount ≠ 0 →
        if e.histPos = -1 then e.line = [] else e.entries.reverse[e.histPos.toNat]? = some e.line := by
  obtain ⟨e, lines, hrun, hok⟩ := editRounds_ok inputs (Editor.Ok.start buf)
  have hlen := hok.len
  have hcount := hok.holds.count
  have hmax := hok.holds.length_le
  have hpos := hok.histPos
  refine ⟨e, lines, hrun, by omega, by omega, by omega, ?_, ?_⟩
  · rw [Editor.entries, hok.holds.count, Int.toNat_natCast, hok.holds.texts]
    rfl
  · intro i hi harrow hne
    obtain ⟨before, rfl⟩ := List.getLast?_eq_some_iff.mp hi
    obtain ⟨e₀, lines₀, hbefore, hok₀⟩ := editRounds_ok before (Editor.Ok.start buf)
    rw [List.foldlM_append, hbefore] at hrun
    simp only [Option.bind_eq_bind, Option.bind_some, List.foldlM_cons, List.foldlM_nil] at hrun
    obtain ⟨s, hround, hs⟩ := Option.bind_eq_some_iff.mp hrun
    cases hs
    exact editRound_arrow hok₀ harrow hround hne

end ChocoOs.Shell
