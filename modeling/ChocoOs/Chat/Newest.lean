import ChocoOs.Chat.Stream
import ChocoOs.Chat.Wrap

/-!
# The newest text

`draw_chat` shows the end of the line buffer. The oldest messages are the first in it, so that where
the buffer is too short for all lines, the newest are missing.
-/

namespace ChocoOs.Chat
open ProgLib

/-! ## What is painted -/

/-- The lowest row that shows a line. -/
def lowestRow (rows : List Row) : Option Row := (rows.filter (· ≠ .blank)).getLast?

theorem paintLine_ne_blank (width : Int) (l : WrapLine) : paintLine width l ≠ .blank := by
  rw [paintLine]
  split <;> exact nofun

/-- The end of the buffer, and blank rows below. -/
theorem paintRows_eq (width chatRows : Int) (lines : List WrapLine) :
    paintRows width chatRows lines =
      (lines.drop (lines.length - chatRows.toNat)).map (paintLine width) ++
        List.replicate (chatRows.toNat - lines.length) .blank := by
  have hlen : ((lines.drop (lines.length - chatRows.toNat)).map (paintLine width)).length =
      min lines.length chatRows.toNat := by
    rw [List.length_map, List.length_drop]
    omega
  apply List.ext_getElem?
  intro i
  rw [paintRows, List.getElem?_map]
  by_cases hi : i < chatRows.toNat
  · rw [List.getElem?_range hi, Option.map_some]
    by_cases hline : i < lines.length
    · have hsrc : (lines.length : Int) - (if (lines.length : Int) < chatRows then (lines.length : Int)
          else chatRows) + i = (lines.length - chatRows.toNat + i : Nat) := by
        split <;> omega
      rw [List.getElem?_append_left (by omega), List.getElem?_map, List.getElem?_drop,
        if_neg (by split <;> omega), hsrc, Int.toNat_natCast,
        List.getElem?_eq_getElem (by omega)]
      rfl
    · rw [List.getElem?_append_right (by omega), if_pos (by split <;> omega), hlen,
        List.getElem?_replicate, if_pos (by omega)]
  · rw [List.getElem?_eq_none (by rw [List.length_range]; omega), List.getElem?_append_right (by omega),
      List.getElem?_eq_none (by rw [List.length_replicate, hlen]; omega)]
    rfl

theorem lowestRow_paintRows (width : Int) {chatRows : Int} (h : 1 ≤ chatRows) (lines : List WrapLine) :
    lowestRow (paintRows width chatRows lines) = lines.getLast?.map (paintLine width) := by
  have hpainted : ∀ r ∈ (lines.drop (lines.length - chatRows.toNat)).map (paintLine width),
      decide (r ≠ .blank) = true := by
    intro r hr
    obtain ⟨l, -, rfl⟩ := List.mem_map.mp hr
    exact decide_eq_true (paintLine_ne_blank width l)
  have hblank : ∀ n : Nat, (List.replicate n Row.blank).filter (· ≠ .blank) = [] := by
    intro n
    rw [List.filter_eq_nil_iff]
    intro r hr
    rw [List.eq_of_mem_replicate hr]
    decide
  rw [lowestRow, paintRows_eq, List.filter_append, List.filter_eq_self.mpr hpainted, hblank,
    List.append_nil, List.getLast?_map, List.getLast?_drop]
  congr 1
  split
  · next hle =>
    have hnil : lines = [] := List.length_eq_zero_iff.mp (by omega)
    rw [hnil]
    rfl
  · rfl

/-! ## What is drawn -/

/-- The lines of the messages with the numbers `i`, …, `i + n - 1`. -/
def channelLines (width : Nat) (hw : 0 < width) (ch : Channel) : Nat → Nat → List WrapLine
  | 0, _ => []
  | n + 1, i =>
    messageLines width hw (ch.msgs ⟨i % msgsPerChannel, ring_lt i⟩) ++
      channelLines width hw ch n (i + 1)

/-- The number of the first message that `draw_chat` shows. -/
def Channel.firstShown (ch : Channel) : Nat :=
  if ch.msgCount > msgsPerChannel then ch.msgCount - msgsPerChannel else 0

/-- The lines of all messages that `draw_chat` shows. -/
def shownLines (width : Nat) (hw : 0 < width) (ch : Channel) : List WrapLine :=
  channelLines width hw ch (ch.msgCount - ch.firstShown) ch.firstShown

/-- The newest message. -/
def Channel.newest (ch : Channel) : Message :=
  ch.msgs ⟨(ch.msgCount - 1) % msgsPerChannel, ring_lt _⟩

section draw

variable {ch : Channel} {width fuel : Nat} {hw : 0 < width}

theorem channelLines_succ (n i : Nat) : channelLines width hw ch (n + 1) i =
    channelLines width hw ch n i ++
      messageLines width hw (ch.msgs ⟨(i + n) % msgsPerChannel, ring_lt _⟩) := by
  induction n generalizing i with
  | zero =>
    show messageLines width hw _ ++ [] = [] ++ messageLines width hw _
    rw [List.append_nil, List.nil_append]
    rfl
  | succ n ih =>
    have hnum : i + 1 + n = i + (n + 1) := by omega
    rw [channelLines, ih (i + 1), channelLines, List.append_assoc]
    simp only [hnum]

/-- The newest message comes last. -/
theorem shownLines_newest (width : Nat) (hw : 0 < width) (h : ch.msgCount ≠ 0) :
    ∃ older, shownLines width hw ch = older ++ messageLines width hw ch.newest := by
  obtain ⟨n, hn⟩ : ∃ n, ch.msgCount - ch.firstShown = n + 1 := by
    apply Nat.exists_eq_add_one.mpr
    rw [Channel.firstShown, msgsPerChannel]
    split <;> omega
  have hlast : ch.firstShown + n = ch.msgCount - 1 := by omega
  refine ⟨channelLines width hw ch n ch.firstShown, ?_⟩
  rw [shownLines, hn, channelLines_succ]
  simp only [hlast]
  rfl

theorem getLast?_shownLines (h : ch.msgCount ≠ 0) :
    (shownLines width hw ch).getLast? = (messageLines width hw ch.newest).getLast? := by
  obtain ⟨older, heq⟩ := shownLines_newest width hw h
  rw [heq, messageLines, List.getLast?_append, List.getLast?_cons]
  rfl

/-- The messages are wrapped one behind the other, as far as there is room. -/
theorem finish_wrapMessages (h : ∀ m, 0 ∈ (ch.msgs m).text)
    (hfuel : ∀ m, (ch.msgs m).string.length < fuel) (n i : Nat) (lines : List WrapLine) :
    (wrapMessages fuel width n i lines).finish ch.cell =
      some (pushLines lines (channelLines width hw ch n i)) := by
  induction n generalizing i lines with
  | zero =>
    rw [channelLines, pushLines, List.take_nil, List.append_nil]
    rfl
  | succ n ih =>
    rw [wrapMessages, Reading.finish_bind, finish_wrapMessage hw (h _) (hfuel _), Option.bind_some,
      ih, pushLines_append, channelLines]

theorem finish_drawChat (h : ∀ m, 0 ∈ (ch.msgs m).text)
    (hfuel : ∀ m, (ch.msgs m).string.length < fuel) (chatRows : Int) :
    (drawChat fuel (width + 2) chatRows).finish ch.cell =
      some (paintRows width chatRows ((shownLines width hw ch).take maxLines)) := by
  have hwidth : (width : Int) + 2 - 2 = width := by omega
  rw [drawChat]
  simp only [hwidth]
  rw [Reading.finish_bind, Reading.finish_get, Option.bind_some, Reading.finish_bind,
    finish_wrapMessages h hfuel, Option.bind_some, Reading.finish_pure]
  rfl

end draw

/-! ## The lowest row -/

section claim

variable (ch : Channel) (width : Nat) (hw : 0 < width) (chatRows : Int)

/-- The lowest row shows the last line of the newest message. -/
def NewestVisible : Prop := ∃ rows bound,
  (∀ fuel ≥ bound, (drawChat fuel (width + 2) chatRows).finish ch.cell = some rows) ∧
  lowestRow rows = (messageLines width hw ch.newest).getLast?.map (paintLine width)

/-- The last line that the buffer takes looks like the last of all. -/
def LooksLast : Prop :=
  (shownLines width hw ch)[maxLines - 1]?.map (paintLine width) =
    (shownLines width hw ch).getLast?.map (paintLine width)

end claim

section claim

variable {ch : Channel} {width : Nat} {hw : 0 < width} {chatRows : Int}

/-- What the lowest row shows is the last line in the buffer. -/
theorem newestVisible_iff_take (h : ∀ m, TextOk (ch.msgs m).text) (hrows : 1 ≤ chatRows) :
    NewestVisible ch width hw chatRows ↔
      ((shownLines width hw ch).take maxLines).getLast?.map (paintLine width) =
        (messageLines width hw ch.newest).getLast?.map (paintLine width) := by
  have hdraw : ∀ fuel ≥ msgTextMax, (drawChat fuel (width + 2) chatRows).finish ch.cell =
      some (paintRows width chatRows ((shownLines width hw ch).take maxLines)) := by
    intro fuel hfuel
    exact finish_drawChat (fun m => (h m).2)
      (fun m => Nat.lt_of_lt_of_le (h m).length_str_lt hfuel) chatRows
  rw [← lowestRow_paintRows width hrows]
  constructor
  · rintro ⟨rows, bound, hrun, hlowest⟩
    have heq := hrun (bound + msgTextMax) (by omega)
    rw [hdraw _ (by omega)] at heq
    rw [Option.some.inj heq]
    exact hlowest
  · intro hlowest
    exact ⟨_, msgTextMax, hdraw, hlowest⟩

/-- The newest text is visible exactly where the lines of all messages have room in the buffer, or by
    chance. -/
theorem newestVisible_iff {s : ChatState} (h : RunsTo s) (c : Fin numChannels)
    (hsent : (s.channels c).msgCount ≠ 0) (width : Nat) (hw : 0 < width) {chatRows : Int}
    (hrows : 1 ≤ chatRows) : NewestVisible (s.channels c) width hw chatRows ↔
      (shownLines width hw (s.channels c)).length ≤ maxLines ∨ LooksLast (s.channels c) width hw := by
  rw [newestVisible_iff_take (fun m => h.textOk (c, m)) hrows, ← getLast?_shownLines hsent]
  by_cases hroom : (shownLines width hw (s.channels c)).length ≤ maxLines
  · rw [List.take_of_length_le hroom]
    exact iff_of_true rfl (.inl hroom)
  · have hlast : ((shownLines width hw (s.channels c)).take maxLines).getLast? =
        (shownLines width hw (s.channels c))[maxLines - 1]? := by
      rw [List.getLast?_take, if_neg (by decide), List.getElem?_eq_getElem (by omega)]
      rfl
    rw [hlast, or_iff_right hroom]
    exact Iff.rfl

theorem start_channel {s : ChatState} (h : loadedStart.after startEvents = some s) :
    (s.channels 1).msgCount = 2 ∧ str (s.message (1, 0)).text = [97] := by
  have hrun : (loadedStart.after startEvents).map (fun s =>
      ((s.channels 1).msgCount, str (s.message (1, 0)).text)) = some (2, [97]) := rfl
  rw [h] at hrun
  exact Prod.mk.inj (Option.some.inj hrun)

theorem newestVisible_iff_start : ∃ s, loadedStart.after startEvents = some s ∧
    (NewestVisible (s.channels 1) 40 (by decide) 20 ↔
      (shownLines 40 (by decide) (s.channels 1)).length ≤ maxLines ∨
        LooksLast (s.channels 1) 40 (by decide)) := by
  obtain ⟨s, hs, -⟩ := emitting_start
  have hsent : (s.channels 1).msgCount ≠ 0 := by
    rw [(start_channel hs).1]
    decide
  exact ⟨s, hs, newestVisible_iff (RunsTo.after (.init loadedStart_loaded) hs) 1 hsent 40
    (by decide) (by decide)⟩

/-- On a panel with one column every letter takes a line. -/
theorem pieces_letters {r : List UInt8} (h : ∀ b ∈ r, b ≠ 32 ∧ b ≠ 10) :
    pieces 1 (by decide) r = r.map ([·]) := by
  induction r with
  | nil => exact pieces_nil rfl
  | cons b r ih =>
    have hrest : ∀ c ∈ r, c ≠ 32 ∧ c ≠ 10 := fun c hc => h c (List.mem_cons_of_mem b hc)
    have hdrop : (b :: r).dropWhile (· = 32) = b :: r :=
      List.dropWhile_cons_of_neg (by simpa using (h b List.mem_cons_self).1)
    have hline : textLine (b :: r) = b :: r := textLine_eq_self fun hmem => (h 10 hmem).2 rfl
    have htake : takeLen 1 (b :: r) = 1 := by
      have hle := takeLen_le_width 1 (b :: r)
      have hpos := takeLen_pos (r := b :: r) Nat.one_pos (by rw [hline]; exact Nat.succ_pos _)
      omega
    have hskip : skipNewline r = r := by
      rw [skipNewline, if_neg]
      intro hhead
      exact (hrest 10 (List.mem_of_mem_head? hhead)).2 rfl
    rw [pieces_cons hdrop, behindLine, htake, List.drop_succ_cons, List.drop_zero, hskip, ih hrest]
    rfl

theorem messageLines_letters {msg : Message} (h : ∀ b ∈ msg.string, b ≠ 32 ∧ b ≠ 10) :
    messageLines 1 (by decide) msg = headerLine msg :: msg.string.map fun b => bodyLine [b] := by
  rw [messageLines, pieces_letters h, List.map_map]
  rfl

theorem shownLines_two (width : Nat) (hw : 0 < width) (h : ch.msgCount = 2) : ch.newest = ch.msgs 1 ∧
    shownLines width hw ch =
      messageLines width hw (ch.msgs 0) ++ messageLines width hw (ch.msgs 1) := by
  have hfirst : ch.firstShown = 0 := by
    rw [Channel.firstShown, h]
    rfl
  constructor
  · rw [Channel.newest]
    simp only [h]
    rfl
  · rw [shownLines, hfirst, h, channelLines, channelLines, channelLines, List.append_nil]
    rfl

/-- A bot may answer with any text that fits into its message. -/
theorem exists_answer (pieces : List (List UInt8))
    (h : (wholeText pieces).length < msgTextMax - 1) :
    ∃ t, RunsTo t ∧ (t.channels 1).msgCount = 2 ∧ ((t.channels 1).msgs 0).string = [97] ∧
      ((t.channels 1).msgs 1).string = wholeText pieces := by
  obtain ⟨s, hs, hstart⟩ := emitting_start
  obtain ⟨hcount, hletter⟩ := start_channel hs
  obtain ⟨t, es, hrun, hpassed, hemit, hbeside⟩ := emit_pieces hstart pieces
  have hwhole := (after_append hs).trans hrun
  have hpieces : passed 0 (startEvents ++ es) = pieces := by
    rw [← hpassed, passed, List.filterMap_append]
    rfl
  refine ⟨t, RunsTo.after (.init loadedStart_loaded) hwhole, (hbeside.count 1).trans hcount, ?_, ?_⟩
  · rw [← hletter]
    exact congrArg (fun m => str m.text) (hbeside.msg (1, 0) (by decide))
  · have hstream := (streamInv_after loadedStart_loaded hwhole).workers 0 _ hemit.worker
    rw [← streamed_eq_wholeText h, ← hpieces]
    exact hstream

/-- On such a panel a message of 511 letters and the one before it have 514 lines: its last letter is
    not shown. -/
theorem not_newestVisible : ¬ ∀ s, RunsTo s → ∀ c, (s.channels c).msgCount ≠ 0 →
    ∀ (width : Nat) (hw : 0 < width) (chatRows : Int), 1 ≤ chatRows →
      NewestVisible (s.channels c) width hw chatRows := by
  intro hclaim
  obtain ⟨most, hlen, hmost⟩ : ∃ most, (wholeText most).length = 510 ∧ ∀ b ∈ wholeText most, b = 97 := by
    refine ⟨List.replicate 170 (List.replicate 3 97), ?_, ?_⟩
    · rw [wholeText, List.length_flatMap, List.map_replicate, List.sum_replicate_nat]
      decide
    · intro b hb
      obtain ⟨piece, hpiece, hb⟩ := List.mem_flatMap.mp hb
      rw [List.eq_of_mem_replicate hpiece] at hb
      exact List.eq_of_mem_replicate ((List.takeWhile_prefix _).subset hb)
  have hwhole : wholeText (most ++ [[98]]) = wholeText most ++ [98] := wholeText_concat ..
  obtain ⟨t, ht, hcount, hfirst, hsecond⟩ := exists_answer (most ++ [[98]])
    (by rw [hwhole, List.length_append, hlen]; decide)
  have hletters : ∀ b ∈ ((t.channels 1).msgs 1).string, b ≠ 32 ∧ b ≠ 10 := by
    intro b hb
    rw [hsecond, hwhole] at hb
    rcases List.mem_append.mp hb with hx | hx
    · rw [hmost b hx]
      decide
    · rw [List.mem_singleton.mp hx]
      decide
  have hletter : ∀ b ∈ ((t.channels 1).msgs 0).string, b ≠ 32 ∧ b ≠ 10 := by
    intro b hb
    rw [hfirst] at hb
    rw [List.mem_singleton.mp hb]
    decide
  have hvisible := (newestVisible_iff_take (fun m => ht.textOk (1, m)) (Int.le_refl 1)).mp
    (hclaim t ht 1 (by rw [hcount]; decide) 1 (by decide) 1 (Int.le_refl 1))
  obtain ⟨hnewest, hshown⟩ := shownLines_two 1 (by decide) hcount
  rw [hshown, hnewest, messageLines_letters hletter, messageLines_letters hletters, hfirst, hsecond,
    hwhole, List.map_append] at hvisible
  -- The last line that the buffer takes is a letter in front of the last.
  have hrow : (headerLine ((t.channels 1).msgs 0) :: [97].map (fun b => bodyLine [b]) ++
      headerLine ((t.channels 1).msgs 1) :: ((wholeText most).map (fun b => bodyLine [b]) ++
        [98].map fun b => bodyLine [b]))[maxLines - 1]? = some (bodyLine [97]) := by
    have hlines : ((wholeText most).map fun b => bodyLine [b]).length = 510 := by
      rw [List.length_map, hlen]
    show ((wholeText most).map (fun b => bodyLine [b]) ++ _)[508]? = _
    rw [List.getElem?_append_left (by omega), List.getElem?_map, List.getElem?_eq_getElem (by omega),
      Option.map_some, hmost _ (List.getElem_mem _)]
  have hlast : (headerLine ((t.channels 1).msgs 1) :: ((wholeText most).map (fun b => bodyLine [b]) ++
      [98].map fun b => bodyLine [b])).getLast? = some (bodyLine [98]) := by
    rw [← List.cons_append]
    exact List.getLast?_concat
  rw [List.getLast?_take, if_neg (by decide), hrow, Option.some_or, hlast] at hvisible
  exact absurd hvisible (by decide)

end claim

end ChocoOs.Chat
