import ChocoOs.Chat.Draw
import ChocoOs.Chat.Texts

/-!
# Word wrap

`pieces` cuts a text into the pieces that `wrap_message` puts into lines. Only blanks and newlines
are between the pieces. A line holds 199 characters of its piece, and the buffer 512 lines.
-/

namespace ChocoOs.Chat
open ProgLib

/-! ## The pieces of a text -/

/-- The characters before the newline. -/
def textLine (r : List UInt8) : List UInt8 := r.takeWhile (· ≠ 10)

/-- `backUp` on a text. -/
def lastSpace (r : List UInt8) : Nat → Nat
  | 0 => 0
  | n + 1 => if (r.drop (n + 1)).headD 0 = 32 then n + 1 else lastSpace r n

/-- `takeBytes` on a text. -/
def takeLen (width : Nat) (r : List UInt8) : Nat :=
  if width < (textLine r).length then
    if width / 2 < lastSpace r width then lastSpace r width else width
  else (textLine r).length

/-- A newline at the end of a line belongs to it. -/
def skipNewline (r : List UInt8) : List UInt8 := if r.head? = some 10 then r.tail else r

/-- What is left behind the next line. -/
def behindLine (width : Nat) (r : List UInt8) : List UInt8 := skipNewline (r.drop (takeLen width r))

section cut

variable {width : Nat} {r : List UInt8}

theorem lastSpace_le (r : List UInt8) (n : Nat) : lastSpace r n ≤ n := by
  induction n with
  | zero => exact Nat.le_refl 0
  | succ n ih =>
    rw [lastSpace]
    split
    · exact Nat.le_refl _
    · exact Nat.le_succ_of_le ih

theorem textLine_le (r : List UInt8) : (textLine r).length ≤ r.length :=
  (List.takeWhile_prefix _).length_le

theorem textLine_cons_of_ne {b : UInt8} (hb : b ≠ 10) (r : List UInt8) :
    textLine (b :: r) = b :: textLine r :=
  List.takeWhile_cons_of_pos (by simpa using hb)

theorem textLine_newline (r : List UInt8) : textLine (10 :: r) = [] :=
  List.takeWhile_cons_of_neg (by decide)

theorem textLine_eq_self (h : 10 ∉ r) : textLine r = r := by
  apply List.takeWhile_eq_self_iff.mpr
  intro b hb
  exact decide_eq_true fun heq => h (heq ▸ hb)

theorem takeLen_le_textLine (width : Nat) (r : List UInt8) :
    takeLen width r ≤ (textLine r).length := by
  have hspace := lastSpace_le r width
  rw [takeLen]
  split
  · split <;> omega
  · exact Nat.le_refl _

theorem takeLen_le (width : Nat) (r : List UInt8) : takeLen width r ≤ r.length :=
  Nat.le_trans (takeLen_le_textLine width r) (textLine_le r)

theorem takeLen_le_width (width : Nat) (r : List UInt8) : takeLen width r ≤ width := by
  have hspace := lastSpace_le r width
  rw [takeLen]
  split
  · split <;> omega
  · omega

/-- A text that fits into one line. -/
theorem takeLen_short (h : (textLine r).length ≤ width) : takeLen width r = (textLine r).length := by
  rw [takeLen, if_neg (Nat.not_lt.mpr h)]

theorem takeLen_pos (hw : 0 < width) (h : 0 < (textLine r).length) : 0 < takeLen width r := by
  rw [takeLen]
  split
  · split <;> omega
  · exact h

theorem skipNewline_le (r : List UInt8) : (skipNewline r).length ≤ r.length := by
  rw [skipNewline]
  split
  · rw [List.length_tail]
    omega
  · exact Nat.le_refl _

/-- Every round of the loop gets further. -/
theorem behindLine_lt (hw : 0 < width) (b : UInt8) (r : List UInt8) :
    (behindLine width (b :: r)).length < (b :: r).length := by
  rw [behindLine]
  by_cases hb : b = 10
  · subst hb
    have htake : takeLen width (10 :: r) = 0 := by
      rw [takeLen_short (by rw [textLine_newline]; exact Nat.zero_le _), textLine_newline]
      rfl
    rw [htake, List.drop_zero, skipNewline, List.head?_cons, if_pos rfl]
    exact Nat.lt_succ_self _
  · have hline : 0 < (textLine (b :: r)).length := by
      rw [textLine_cons_of_ne hb]
      exact Nat.succ_pos _
    have hskip := skipNewline_le ((b :: r).drop (takeLen width (b :: r)))
    have hpos := takeLen_pos hw hline
    rw [List.length_drop, List.length_cons] at hskip
    rw [List.length_cons]
    omega

theorem dropSpaces_le (r : List UInt8) : (r.dropWhile (· = 32)).length ≤ r.length :=
  (List.dropWhile_suffix _).length_le

end cut

/-- The pieces that the loop of `wrap_message` pushes. -/
def pieces (width : Nat) (hw : 0 < width) (r : List UInt8) : List (List UInt8) :=
  match _h : r.dropWhile (· = 32) with
  | [] => []
  | b :: rest =>
    (b :: rest).take (takeLen width (b :: rest)) :: pieces width hw (behindLine width (b :: rest))
  termination_by r.length
  decreasing_by
    have hle := dropSpaces_le r
    rw [_h] at hle
    exact Nat.lt_of_lt_of_le (behindLine_lt hw b rest) hle

section text

variable {width : Nat} {hw : 0 < width} {r : List UInt8}

theorem pieces_nil (h : r.dropWhile (· = 32) = []) : pieces width hw r = [] := by
  rw [pieces]
  split
  · rfl
  · next hcons =>
    rw [h] at hcons
    cases hcons

theorem pieces_cons {b : UInt8} {rest : List UInt8} (h : r.dropWhile (· = 32) = b :: rest) :
    pieces width hw r =
      (b :: rest).take (takeLen width (b :: rest)) :: pieces width hw (behindLine width (b :: rest)) := by
  rw [pieces]
  split
  · next hnil =>
    rw [h] at hnil
    cases hnil
  · next hcons =>
    rw [h] at hcons
    cases hcons
    rfl

/-- A piece ends before the newline. -/
theorem newline_not_mem_take (r : List UInt8) {n : Nat} (h : n ≤ (textLine r).length) :
    10 ∉ r.take n := by
  have hbegins : r.take n <+: textLine r :=
    List.prefix_of_prefix_length_le (List.take_prefix n r) (List.takeWhile_prefix _)
      (Nat.le_trans (List.length_take_le n r) h)
  intro hmem
  have hne := List.mem_takeWhile_imp (hbegins.subset hmem)
  exact absurd hne (by decide)

/-- What every piece is like. -/
theorem mem_pieces {p : List UInt8} (h : p ∈ pieces width hw r) : p.length ≤ width ∧ 10 ∉ p := by
  induction r using pieces.induct width hw with
  | case1 r hnil =>
    rw [pieces_nil hnil] at h
    cases h
  | case2 r b rest hcons ih =>
    rw [pieces_cons hcons, List.mem_cons] at h
    rcases h with rfl | hmem
    · refine ⟨?_, newline_not_mem_take _ (takeLen_le_textLine ..)⟩
      exact Nat.le_trans (List.length_take_le ..) (takeLen_le_width ..)
    · exact ih hmem

/-- Without blanks and newlines. -/
def inked (r : List UInt8) : List UInt8 := r.filter fun b => b ≠ 32 ∧ b ≠ 10

/-- Without blanks. -/
def unspaced (r : List UInt8) : List UInt8 := r.filter (· ≠ 32)

theorem inked_append (r t : List UInt8) : inked (r ++ t) = inked r ++ inked t := List.filter_append ..

theorem inked_of_not_mem (h : 10 ∉ r) : inked r = unspaced r := by
  rw [inked, unspaced]
  apply List.filter_congr
  intro b hb
  have hne : b ≠ 10 := fun heq => h (heq ▸ hb)
  simp [hne]

theorem inked_skipNewline (r : List UInt8) : inked (skipNewline r) = inked r := by
  rw [skipNewline]
  split
  · next hhead =>
    cases r with
    | nil => rfl
    | cons b t =>
      cases hhead
      rfl
  · rfl

theorem inked_dropSpaces (r : List UInt8) : inked (r.dropWhile (· = 32)) = inked r := by
  induction r with
  | nil => rfl
  | cons b t ih =>
    by_cases hb : b = 32
    · rw [List.dropWhile_cons_of_pos (by simpa using hb), ih, hb]
      rfl
    · rw [List.dropWhile_cons_of_neg (by simpa using hb)]

/-- Only blanks and newlines are between the pieces. -/
theorem unspaced_pieces (width : Nat) (hw : 0 < width) (r : List UInt8) :
    unspaced (pieces width hw r).flatten = inked r := by
  induction r using pieces.induct width hw with
  | case1 r hnil =>
    rw [pieces_nil hnil, ← inked_dropSpaces, hnil]
    rfl
  | case2 r b rest hcons ih =>
    have hline := newline_not_mem_take (b :: rest) (takeLen_le_textLine width (b :: rest))
    calc
      unspaced (pieces width hw r).flatten
          = unspaced ((b :: rest).take (takeLen width (b :: rest))) ++
              unspaced (pieces width hw (behindLine width (b :: rest))).flatten := by
            rw [pieces_cons hcons, List.flatten_cons, unspaced, List.filter_append]
            rfl
      _ = inked ((b :: rest).take (takeLen width (b :: rest))) ++
            inked ((b :: rest).drop (takeLen width (b :: rest))) := by
            rw [ih, inked_of_not_mem hline, behindLine, inked_skipNewline]
      _ = inked r := by
            rw [← inked_append, List.take_append_drop, ← hcons, inked_dropSpaces]

theorem unspaced_append (r t : List UInt8) : unspaced (r ++ t) = unspaced r ++ unspaced t :=
  List.filter_append ..

theorem unspaced_eq_nil : unspaced r = [] ↔ ∀ b ∈ r, b = 32 := by
  rw [unspaced, List.filter_eq_nil_iff]
  simp

theorem length_unspaced_cut (ps : List (List UInt8)) (n : Nat) :
    (unspaced ps.flatten).length =
      (unspaced (ps.flatMap (·.take n))).length + (unspaced (ps.flatMap (·.drop n))).length := by
  induction ps with
  | nil => rfl
  | cons p ps ih =>
    have hp : (unspaced p).length = (unspaced (p.take n)).length + (unspaced (p.drop n)).length := by
      rw [← List.length_append, ← unspaced_append, List.take_append_drop]
    rw [List.flatten_cons, List.flatMap_cons, List.flatMap_cons, unspaced_append, unspaced_append,
      unspaced_append, List.length_append, List.length_append, List.length_append, ih, hp]
    omega

/-- Pieces that are cut lose nothing but blanks. -/
theorem unspaced_cut_iff (ps : List (List UInt8)) (n : Nat) :
    unspaced (ps.flatMap (·.take n)) = unspaced ps.flatten ↔ ∀ p ∈ ps, ∀ b ∈ p.drop n, b = 32 := by
  constructor
  · intro h p hp
    have hlen := length_unspaced_cut ps n
    rw [h] at hlen
    have hnil : unspaced (ps.flatMap (·.drop n)) = [] := List.length_eq_zero_iff.mp (by omega)
    intro b hb
    exact unspaced_eq_nil.mp hnil b (List.mem_flatMap.mpr ⟨p, hp, hb⟩)
  · intro h
    induction ps with
    | nil => rfl
    | cons p ps ih =>
      have hp : unspaced (p.drop n) = [] := unspaced_eq_nil.mpr (h p List.mem_cons_self)
      rw [List.flatMap_cons, List.flatten_cons, unspaced_append, unspaced_append,
        ih fun q hq => h q (List.mem_cons_of_mem _ hq)]
      congr 1
      calc
        unspaced (p.take n) = unspaced (p.take n) ++ unspaced (p.drop n) := by
              rw [hp, List.append_nil]
        _ = unspaced p := by rw [← unspaced_append, List.take_append_drop]

end text

/-! ## The string in memory -/

/-- The string that begins at `i` is `r`. -/
def StringAt (ch : Channel) (m : Fin msgsPerChannel) (i : Nat) (r : List UInt8) : Prop :=
  0 ∉ r ∧ ∃ junk, (ch.msgs m).text.drop i = r ++ 0 :: junk

section reading

variable {ch : Channel} {m : Fin msgsPerChannel} {i n fuel : Nat} {r : List UInt8} {b : UInt8}

theorem StringAt.drop (h : StringAt ch m i r) (hn : n ≤ r.length) :
    StringAt ch m (i + n) (r.drop n) := by
  obtain ⟨h0, junk, hr⟩ := h
  refine ⟨fun hmem => h0 (List.mem_of_mem_drop hmem), junk, ?_⟩
  rw [← List.drop_drop, hr, List.drop_append_of_le_length hn]

theorem StringAt.tail (h : StringAt ch m i (b :: r)) : StringAt ch m (i + 1) r :=
  h.drop (n := 1) (Nat.le_add_left 1 r.length)

theorem finish_byte_cell (p : Int) : (byte m p).finish ch.cell = ch.cell (.text m p) := by
  show Reading.finish ch.cell (Reading.bind (.done (ch.cell (.text m p))) _) = _
  generalize ch.cell (.text m p) = v
  cases v <;> rfl

theorem finish_byte (h : StringAt ch m i r) (hn : n ≤ r.length) :
    (byte m (i + n : Nat)).finish ch.cell = some ((r.drop n).headD 0) := by
  obtain ⟨-, junk, hr⟩ := h.drop hn
  rw [finish_byte_cell, Channel.cell, if_pos (Int.natCast_nonneg _), Int.toNat_natCast,
    ← Nat.add_zero (i + n), ← List.getElem?_drop, hr]
  cases r.drop n <;> rfl

theorem finish_byte_nil (h : StringAt ch m i []) : (byte m i).finish ch.cell = some 0 :=
  finish_byte (n := 0) h (Nat.le_refl 0)

theorem finish_byte_cons (h : StringAt ch m i (b :: r)) : (byte m i).finish ch.cell = some b :=
  finish_byte (n := 0) h (Nat.zero_le _)

theorem StringAt.ne_zero (h : StringAt ch m i (b :: r)) : b ≠ 0 := by
  rintro rfl
  exact h.1 List.mem_cons_self

theorem finish_skipSpaces (h : StringAt ch m i r) (hfuel : r.length < fuel) :
    ∃ j : Nat, (skipSpaces m fuel i).finish ch.cell = some (j : Int) ∧
      StringAt ch m j (r.dropWhile (· = 32)) := by
  induction r generalizing i fuel with
  | nil =>
    obtain ⟨k, rfl⟩ := Nat.exists_eq_add_one.mpr hfuel
    refine ⟨i, ?_, h⟩
    rw [skipSpaces, Reading.finish_bind, finish_byte_nil h, Option.bind_some, if_neg (by decide),
      Reading.finish_pure]
  | cons b r ih =>
    obtain ⟨k, rfl⟩ := Nat.exists_eq_add_one.mpr (Nat.zero_lt_of_lt hfuel)
    rw [skipSpaces, Reading.finish_bind, finish_byte_cons h, Option.bind_some]
    by_cases hb : b = 32
    · rw [if_pos hb, List.dropWhile_cons_of_pos (by simpa using hb)]
      exact ih h.tail (Nat.lt_of_succ_lt_succ hfuel)
    · refine ⟨i, ?_, ?_⟩
      · rw [if_neg hb, Reading.finish_pure]
      · rw [List.dropWhile_cons_of_neg (by simpa using hb)]
        exact h

theorem finish_strchr (h : StringAt ch m i r) (hfuel : r.length < fuel) :
    (strchrFrom m 10 fuel i).finish ch.cell =
      some (if 10 ∈ r then some ((i + (textLine r).length : Nat) : Int) else none) := by
  induction r generalizing i fuel with
  | nil =>
    obtain ⟨k, rfl⟩ := Nat.exists_eq_add_one.mpr hfuel
    rw [strchrFrom, Reading.finish_bind, finish_byte_nil h, Option.bind_some, if_neg (by decide),
      Reading.finish_bind, finish_byte_nil h, Option.bind_some, if_pos rfl, if_neg List.not_mem_nil,
      Reading.finish_pure]
  | cons b r ih =>
    obtain ⟨k, rfl⟩ := Nat.exists_eq_add_one.mpr (Nat.zero_lt_of_lt hfuel)
    rw [strchrFrom, Reading.finish_bind, finish_byte_cons h, Option.bind_some]
    by_cases hb : b = 10
    · subst hb
      rw [if_pos rfl, Reading.finish_pure, if_pos List.mem_cons_self, textLine_newline]
      rfl
    · have hmem : 10 ∈ b :: r ↔ 10 ∈ r := by
        rw [List.mem_cons, or_iff_right (Ne.symm hb)]
      have hrec := ih h.tail (Nat.lt_of_succ_lt_succ hfuel)
      rw [if_neg hb, Reading.finish_bind, finish_byte_cons h, Option.bind_some, if_neg h.ne_zero,
        ← Int.natCast_succ, hrec, textLine_cons_of_ne hb, List.length_cons]
      simp only [hmem, Nat.add_assoc, Nat.add_comm 1]

theorem finish_strlen (h : StringAt ch m i r) (hfuel : r.length < fuel) :
    (strlenFrom m fuel i).finish ch.cell = some (r.length : Int) := by
  induction r generalizing i fuel with
  | nil =>
    obtain ⟨k, rfl⟩ := Nat.exists_eq_add_one.mpr hfuel
    rw [strlenFrom, Reading.finish_bind, finish_byte_nil h, Option.bind_some, if_pos rfl,
      Reading.finish_pure]
    rfl
  | cons b r ih =>
    obtain ⟨k, rfl⟩ := Nat.exists_eq_add_one.mpr (Nat.zero_lt_of_lt hfuel)
    rw [strlenFrom, Reading.finish_bind, finish_byte_cons h, Option.bind_some, if_neg h.ne_zero,
      Reading.finish_bind, ← Int.natCast_succ, ih h.tail (Nat.lt_of_succ_lt_succ hfuel),
      Option.bind_some, Reading.finish_pure]
    rfl

theorem finish_backUp (h : StringAt ch m i r) (hn : n ≤ r.length) (hfuel : n < fuel) :
    (backUp m i fuel n).finish ch.cell = some (lastSpace r n : Int) := by
  induction n generalizing fuel with
  | zero =>
    obtain ⟨k, rfl⟩ := Nat.exists_eq_add_one.mpr hfuel
    rw [backUp, if_pos (Int.natCast_nonpos_iff.mpr rfl), Reading.finish_pure]
    rfl
  | succ n ih =>
    obtain ⟨k, rfl⟩ := Nat.exists_eq_add_one.mpr (Nat.zero_lt_of_lt hfuel)
    rw [backUp, if_neg (by omega), Reading.finish_bind, ← Int.natCast_add, finish_byte h hn,
      Option.bind_some, lastSpace]
    split
    · rfl
    · have hpred : ((n + 1 : Nat) : Int) - 1 = n := by omega
      rw [hpred]
      exact ih (Nat.le_of_succ_le hn) (Nat.lt_of_succ_lt_succ hfuel)

theorem finish_copyBytes (h : StringAt ch m i r) (hn : n ≤ r.length) :
    (copyBytes m n i).finish ch.cell = some (r.take n) := by
  induction n generalizing i r with
  | zero => rfl
  | succ n ih =>
    cases r with
    | nil => exact absurd hn (Nat.not_succ_le_zero n)
    | cons b r =>
      rw [copyBytes, Reading.finish_bind, finish_byte_cons h, Option.bind_some, Reading.finish_bind,
        ← Int.natCast_succ, ih h.tail (Nat.le_of_succ_le_succ hn), Option.bind_some,
        Reading.finish_pure, List.take_succ_cons]

end reading

/-! ## The lines of a message -/

/-- The line that `wrap_push` makes of a piece. -/
def bodyLine (p : List UInt8) : WrapLine := ⟨p.take (lineTextSize - 1), colText, false, 0, 0⟩

/-- The line above the body. -/
def headerLine (msg : Message) : WrapLine :=
  ⟨(msg.author.takeWhile (· ≠ 0)).take (lineTextSize - 1), colText, true, msg.color, msg.minutes⟩

/-- The string of a message. -/
def Message.string (msg : Message) : List UInt8 := str msg.text

/-- The lines of a message in a buffer without a limit. -/
def messageLines (width : Nat) (hw : 0 < width) (msg : Message) : List WrapLine :=
  headerLine msg :: (pieces width hw msg.string).map bodyLine

/-- As many of the new lines as the buffer still takes. -/
def pushLines (lines new : List WrapLine) : List WrapLine :=
  lines ++ new.take (maxLines - lines.length)

theorem pushLines_append (lines a b : List WrapLine) :
    pushLines (pushLines lines a) b = pushLines lines (a ++ b) := by
  have hroom : maxLines - (lines ++ a.take (maxLines - lines.length)).length =
      maxLines - lines.length - a.length := by
    rw [List.length_append, List.length_take]
    omega
  rw [pushLines, pushLines, pushLines, hroom, List.append_assoc, List.take_append]

theorem pushLines_full {lines : List WrapLine} (h : maxLines ≤ lines.length) (new : List WrapLine) :
    pushLines lines new = lines := by
  rw [pushLines, Nat.sub_eq_zero_of_le h, List.take_zero, List.append_nil]

theorem pushLines_one {lines : List WrapLine} (h : ¬ maxLines ≤ lines.length) (l : WrapLine) :
    pushLines lines [l] = lines ++ [l] := by
  rw [pushLines, List.take_of_length_le]
  rw [List.length_singleton]
  omega

section finish

variable {ch : Channel} {m : Fin msgsPerChannel} {i n fuel width : Nat} {r : List UInt8}
  {lines : List WrapLine}

theorem finish_wrapPush (h : StringAt ch m i r) (hn : n ≤ r.length) :
    (wrapPush m i n lines).finish ch.cell = some (pushLines lines [bodyLine (r.take n)]) := by
  rw [wrapPush]
  by_cases hfull : maxLines ≤ lines.length
  · rw [if_pos hfull, pushLines_full hfull]
    rfl
  · have hcut : (if (n : Int) > lineTextSize - 1 then (lineTextSize - 1 : Int) else n) =
        (min (lineTextSize - 1) n : Nat) := by
      rw [lineTextSize]
      split <;> omega
    rw [if_neg hfull, pushLines_one hfull]
    simp only [hcut]
    rw [if_neg (by omega), Int.toNat_natCast, Reading.finish_bind,
      finish_copyBytes h (Nat.le_trans (Nat.min_le_right ..) hn), Option.bind_some,
      Reading.finish_pure, bodyLine, List.take_take]

theorem finish_takeBytes (h : StringAt ch m i r) (hfuel : r.length < fuel) :
    (takeBytes fuel width m i (textLine r).length).finish ch.cell = some (takeLen width r : Int) := by
  have hline := textLine_le r
  rw [takeBytes, takeLen]
  by_cases hlong : width < (textLine r).length
  · have htake : (if ((textLine r).length : Int) < width then ((textLine r).length : Int) else width) =
        width := if_neg (by omega)
    have hhalf : (width : Int).tdiv 2 = (width / 2 : Nat) := rfl
    simp only [htake]
    rw [if_pos ⟨trivial, by omega⟩, if_pos hlong, Reading.finish_bind,
      finish_backUp h (by omega) (by omega), Option.bind_some, Reading.finish_pure, hhalf]
    split <;> split <;> first | rfl | omega
  · rw [if_neg hlong, if_neg (by omega), Reading.finish_pure]
    congr 1
    split <;> omega

/-- A line ends at the newline, or there is more of it. -/
theorem head_drop_iff (h : n ≤ (textLine r).length) :
    (r.drop n).head? = some 10 ↔ 10 ∈ r ∧ n = (textLine r).length := by
  induction r generalizing n with
  | nil => simp
  | cons b r ih =>
    by_cases hb : b = 10
    · subst hb
      obtain rfl : n = 0 := Nat.le_zero.mp h
      exact iff_of_true rfl ⟨List.mem_cons_self, rfl⟩
    · have hmem : 10 ∈ b :: r ↔ 10 ∈ r := by
        rw [List.mem_cons, or_iff_right (Ne.symm hb)]
      rw [textLine_cons_of_ne hb, List.length_cons] at h
      rw [textLine_cons_of_ne hb, List.length_cons, hmem]
      cases n with
      | zero => exact iff_of_false (fun heq => hb (Option.some.inj heq)) fun hc => by cases hc.2
      | succ n =>
        rw [List.drop_succ_cons, ih (Nat.le_of_succ_le_succ h), Nat.succ_inj]

/-- The next round begins behind the line. -/
theorem stringAt_behindLine (width : Nat) (h : StringAt ch m i r) :
    ∃ j : Nat, (if (if 10 ∈ r then some ((i + (textLine r).length : Nat) : Int) else none) =
        some ((i : Int) + takeLen width r) then (i : Int) + takeLen width r + 1
      else i + takeLen width r) = j ∧ StringAt ch m j (behindLine width r) := by
  have hdrop := h.drop (takeLen_le width r)
  have hhead := head_drop_iff (takeLen_le_textLine width r)
  rw [behindLine, skipNewline]
  by_cases hnl : (r.drop (takeLen width r)).head? = some 10
  · obtain ⟨hmem, hlen⟩ := hhead.mp hnl
    refine ⟨i + takeLen width r + 1, ?_, ?_⟩
    · rw [if_pos hmem, if_pos (by rw [hlen]; rfl)]
      rfl
    · rw [if_pos hnl]
      cases hrest : r.drop (takeLen width r) with
      | nil => rw [hrest] at hnl; cases hnl
      | cons b t =>
        rw [hrest] at hdrop
        exact hdrop.tail
  · refine ⟨i + takeLen width r, ?_, by rw [if_neg hnl]; exact hdrop⟩
    rw [if_neg]
    · rfl
    · intro heq
      split at heq
      · next hmem =>
        have hlen : i + (textLine r).length = i + takeLen width r := Int.ofNat.inj (Option.some.inj heq)
        exact hnl (hhead.mpr ⟨hmem, by omega⟩)
      · cases heq

theorem finish_wrapBody (hw : 0 < width) (h : StringAt ch m i r) (hfuel : r.length < fuel)
    (hn : r.length < n) (lines : List WrapLine) : (wrapBody fuel width m n i lines).finish ch.cell =
      some (pushLines lines ((pieces width hw r).map bodyLine)) := by
  induction n generalizing i r lines with
  | zero => exact absurd hn (Nat.not_lt_zero _)
  | succ n ih =>
    have hnone : pushLines lines [] = lines := by
      rw [pushLines, List.take_nil, List.append_nil]
    obtain ⟨j, hskip, hj⟩ := finish_skipSpaces h hfuel
    have hle := dropSpaces_le r
    rw [wrapBody, Reading.finish_bind]
    cases hr : r with
    | nil =>
      rw [hr] at h
      rw [finish_byte_nil h, Option.bind_some, if_pos rfl, Reading.finish_pure, pieces_nil rfl]
      exact congrArg some hnone.symm
    | cons c t =>
      rw [hr] at h
      rw [finish_byte_cons h, Option.bind_some, if_neg h.ne_zero, Reading.finish_bind, hskip,
        Option.bind_some, Reading.finish_bind, ← hr]
      cases hrest : r.dropWhile (· = 32) with
      | nil =>
        rw [hrest] at hj
        rw [finish_byte_nil hj, Option.bind_some, if_pos rfl, Reading.finish_pure, pieces_nil hrest]
        exact congrArg some hnone.symm
      | cons b rest =>
        rw [hrest] at hj hle
        have hlt := behindLine_lt hw b rest
        have hfuel' : (b :: rest).length < fuel := by omega
        obtain ⟨k, hk, hat⟩ := stringAt_behindLine width hj
        rw [finish_byte_cons hj, Option.bind_some, if_neg hj.ne_zero, Reading.finish_bind,
          finish_strchr hj hfuel', Option.bind_some]
        generalize hnl : (if 10 ∈ b :: rest then
          some ((j + (textLine (b :: rest)).length : Nat) : Int) else none) = nl at hk ⊢
        have hround : (takeBytes fuel width m j (textLine (b :: rest)).length >>= fun take =>
            wrapPush m j take lines >>= fun lines =>
              wrapBody fuel width m n (if nl = some (j + take) then j + take + 1 else j + take)
                lines).finish ch.cell = some (pushLines lines ((pieces width hw r).map bodyLine)) := by
          rw [Reading.finish_bind, finish_takeBytes hj hfuel', Option.bind_some, Reading.finish_bind,
            finish_wrapPush hj (takeLen_le ..), Option.bind_some, hk, ih hat (by omega) (by omega),
            pushLines_append, pieces_cons hrest]
          rfl
        -- `avail` is the length of the line, also where no newline ends it.
        by_cases hmem : 10 ∈ b :: rest
        · rw [if_pos hmem] at hnl
          subst hnl
          have havail : ((j + (textLine (b :: rest)).length : Nat) : Int) - j =
              (textLine (b :: rest)).length := by omega
          rw [← hround, ← havail]
          rfl
        · rw [if_neg hmem] at hnl
          subst hnl
          rw [textLine_eq_self hmem] at hround
          show (strlenFrom m fuel j >>= _).finish ch.cell = _
          rw [Reading.finish_bind, finish_strlen hj hfuel', Option.bind_some, ← hround]

theorem stringAt_string (h : 0 ∈ (ch.msgs m).text) : StringAt ch m 0 (ch.msgs m).string := by
  obtain ⟨junk, hjunk⟩ := exists_terminated h
  exact ⟨zero_not_mem_str _, junk, hjunk⟩

/-- `wrap_message` pushes the lines of the message, as far as there is room. -/
theorem finish_wrapMessage (hw : 0 < width) (h : 0 ∈ (ch.msgs m).text)
    (hfuel : (ch.msgs m).string.length < fuel) :
    (wrapMessage fuel width m lines).finish ch.cell =
      some (pushLines lines (messageLines width hw (ch.msgs m))) := by
  rw [wrapMessage]
  by_cases hfull : maxLines ≤ lines.length
  · rw [if_pos hfull, pushLines_full hfull]
    rfl
  · have hbody := finish_wrapBody hw (stringAt_string h) hfuel hfuel (lines ++ [headerLine (ch.msgs m)])
    rw [if_neg hfull]
    calc
      _ = (wrapBody fuel width m fuel 0 (lines ++ [headerLine (ch.msgs m)])).finish ch.cell := rfl
      _ = some (pushLines lines (messageLines width hw (ch.msgs m))) := by
            rw [← Int.natCast_zero, hbody, ← pushLines_one hfull, pushLines_append]
            rfl

end finish

/-! ## Nothing is lost -/

/-- The texts of the body lines, one behind the other. -/
def bodyText (lines : List WrapLine) : List UInt8 :=
  (lines.filter fun l => !l.authorLine).flatMap (·.text)

section claim

variable (ch : Channel) (m : Fin msgsPerChannel) (width : Nat) (hw : 0 < width)
  (lines : List WrapLine)

/-- The buffer is full before the message is. -/
def LimitHit : Prop := maxLines < lines.length + (messageLines width hw (ch.msgs m)).length

/-- `wrap_message` ends, with lines that are not too long and no newline in them. Where there is room
    for all, they hold the text. -/
def KeepsText : Prop := ∃ new bound,
  (∀ fuel ≥ bound, (wrapMessage fuel width m lines).finish ch.cell = some (lines ++ new)) ∧
  (∀ l ∈ new, l.authorLine = false → l.text.length ≤ width ∧ 10 ∉ l.text) ∧
  (¬ LimitHit ch m width hw lines → unspaced (bodyText new) = inked (ch.msgs m).string)

/-- No piece has anything but blanks behind what a line holds. -/
def FitsLines : Prop :=
  ∀ p ∈ pieces width hw (ch.msgs m).string, ∀ b ∈ p.drop (lineTextSize - 1), b = 32

end claim

section claim

variable {ch : Channel} {m : Fin msgsPerChannel} {width : Nat} {hw : 0 < width}
  {lines : List WrapLine}

/-- On a panel of at most 199 columns no line is too short for its piece. -/
theorem fitsLines_of_narrow (h : width < lineTextSize) : FitsLines ch m width hw := by
  intro p hp b hb
  rw [List.drop_of_length_le] at hb
  · cases hb
  · have hlen := (mem_pieces hp).1
    omega

theorem bodyText_messageLines (width : Nat) (hw : 0 < width) (msg : Message) :
    bodyText (messageLines width hw msg) =
      (pieces width hw msg.string).flatMap (·.take (lineTextSize - 1)) := by
  have hbody : ∀ l ∈ (pieces width hw msg.string).map bodyLine, (!l.authorLine) = true := by
    intro l hl
    obtain ⟨p, -, rfl⟩ := List.mem_map.mp hl
    rfl
  rw [bodyText, messageLines, List.filter_cons_of_neg (by simp [headerLine]),
    List.filter_eq_self.mpr hbody, List.flatMap_map]
  rfl

/-- What `wrap_message` has pushed. -/
theorem pushed_eq (hw : 0 < width) (h : 0 ∈ (ch.msgs m).text) {new : List WrapLine} {bound : Nat}
    (hrun : ∀ fuel ≥ bound, (wrapMessage fuel width m lines).finish ch.cell = some (lines ++ new)) :
    new = (messageLines width hw (ch.msgs m)).take (maxLines - lines.length) := by
  have hend := hrun (bound + (ch.msgs m).string.length + 1) (by omega)
  rw [finish_wrapMessage hw h (by omega)] at hend
  exact (List.append_cancel_left (Option.some.inj hend)).symm

/-- Word wrap loses text exactly where a line is too short for its piece. -/
theorem keepsText_iff (ch : Channel) (m : Fin msgsPerChannel) (width : Nat) (hw : 0 < width)
    (lines : List WrapLine) (h : 0 ∈ (ch.msgs m).text) :
    KeepsText ch m width hw lines ↔ LimitHit ch m width hw lines ∨ FitsLines ch m width hw := by
  have hall : ¬ LimitHit ch m width hw lines →
      (messageLines width hw (ch.msgs m)).take (maxLines - lines.length) =
        messageLines width hw (ch.msgs m) := by
    intro hroom
    rw [LimitHit] at hroom
    exact List.take_of_length_le (by omega)
  have hkeep : ¬ LimitHit ch m width hw lines → (unspaced (bodyText
      ((messageLines width hw (ch.msgs m)).take (maxLines - lines.length))) =
        inked (ch.msgs m).string ↔ FitsLines ch m width hw) := by
    intro hroom
    rw [hall hroom, bodyText_messageLines, ← unspaced_pieces width hw, unspaced_cut_iff]
    exact Iff.rfl
  constructor
  · rintro ⟨new, bound, hrun, -, htext⟩
    rcases Classical.em (LimitHit ch m width hw lines) with hhit | hroom
    · exact .inl hhit
    · rw [pushed_eq hw h hrun] at htext
      exact .inr ((hkeep hroom).mp (htext hroom))
  · intro hcond
    refine ⟨_, (ch.msgs m).string.length + 1, fun fuel hfuel => finish_wrapMessage hw h hfuel,
      ?_, fun hroom => (hkeep hroom).mpr (hcond.resolve_left hroom)⟩
    intro l hl hbody
    rcases List.mem_cons.mp (List.mem_of_mem_take hl) with rfl | hmap
    · cases hbody
    · obtain ⟨p, hp, rfl⟩ := List.mem_map.mp hmap
      obtain ⟨hlen, hnl⟩ := mem_pieces hp
      refine ⟨Nat.le_trans ?_ hlen, fun hmem => hnl (List.mem_of_mem_take hmem)⟩
      rw [bodyLine, List.length_take]
      exact Nat.min_le_right ..

/-- A channel that holds one message. -/
def channelOf (text : List UInt8) : Channel where
  bot := ascii "stories15M"
  botColor := 0
  msgs := fun _ => ⟨ascii "you" ++ [0], 0, text, 0⟩
  msgCount := 1
  dirty := false
  typing := false

theorem keepsText_iff_short :
    KeepsText (channelOf (ascii "hi there" ++ [0])) 0 4 (by decide) [] ↔
      LimitHit (channelOf (ascii "hi there" ++ [0])) 0 4 (by decide) [] ∨
        FitsLines (channelOf (ascii "hi there" ++ [0])) 0 4 (by decide) :=
  keepsText_iff _ 0 4 (by decide) [] (by decide)

/-- A text that fits into a row is one piece. -/
theorem pieces_row {r : List UInt8} (hne : r ≠ []) (hb : ∀ b ∈ r, b ≠ 32 ∧ b ≠ 10)
    (hlen : r.length ≤ width) : pieces width hw r = [r] := by
  cases r with
  | nil => exact absurd rfl hne
  | cons b r =>
    have hline : textLine (b :: r) = b :: r := textLine_eq_self fun hmem => (hb 10 hmem).2 rfl
    have htake : takeLen width (b :: r) = (b :: r).length := by
      rw [takeLen_short (by rw [hline]; exact hlen), hline]
    have hdrop : (b :: r).dropWhile (· = 32) = b :: r :=
      List.dropWhile_cons_of_neg (by simpa using (hb b List.mem_cons_self).1)
    rw [pieces_cons hdrop, behindLine, htake, List.take_length, List.drop_length, pieces_nil]
    rfl

/-- On a screen of 1920 columns, 219 letters that are sent are shown as 199. -/
theorem not_keepsText : ¬ ∀ (ch : Channel) (m : Fin msgsPerChannel) (width : Nat) (hw : 0 < width)
    (lines : List WrapLine), 0 ∈ (ch.msgs m).text → KeepsText ch m width hw lines := by
  intro hclaim
  have h97 : ∀ b ∈ List.replicate 219 (97 : UInt8), b = 97 := fun b => List.eq_of_mem_replicate
  have h0 : 0 ∈ ((channelOf (List.replicate 219 97 ++ [0])).msgs 0).text :=
    List.mem_append_right _ List.mem_cons_self
  have hstring : ((channelOf (List.replicate 219 97 ++ [0])).msgs 0).string =
      List.replicate 219 97 := by
    have hnul : 0 ∉ List.replicate 219 (97 : UInt8) := fun hmem => absurd (h97 0 hmem) (by decide)
    exact str_terminated hnul []
  have hpieces : pieces 275 (by decide) (List.replicate 219 97) = [List.replicate 219 97] := by
    apply pieces_row
    · rw [Ne, List.replicate_eq_nil_iff]
      decide
    · intro b hb
      rw [h97 b hb]
      decide
    · rw [List.length_replicate]
      decide
  obtain ⟨new, bound, hrun, -, htext⟩ := hclaim _ 0 275 (by decide) [] h0
  have hroom : ¬ LimitHit (channelOf (List.replicate 219 97 ++ [0])) 0 275 (by decide) [] := by
    rw [LimitHit, messageLines, hstring, hpieces]
    decide
  have hlost := htext hroom
  rw [pushed_eq (by decide) h0 hrun, List.take_of_length_le, bodyText_messageLines, hstring,
    ← unspaced_pieces 275 (by decide), hpieces, unspaced_cut_iff] at hlost
  · have hmem : (97 : UInt8) ∈ (List.replicate 219 97).drop (lineTextSize - 1) := by
      rw [List.drop_replicate]
      exact List.mem_replicate.mpr ⟨by decide, rfl⟩
    exact absurd (hlost _ List.mem_cons_self 97 hmem) (by decide)
  · rw [messageLines, hstring, hpieces]
    decide

end claim

end ChocoOs.Chat
