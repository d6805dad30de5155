import ChocoOs.Chat.Operations
import ChocoOs.Lib.CString
import ChocoOs.Lib.Fields
import ChocoOs.Lib.Loop
import ChocoOs.Shell.Commands

/-!
# The words of a line

`process_command` splits the line in its buffer: each word is ended by a terminator in place of the
blank behind it, and its pointer goes to `argv`, which has room for 16.
-/

namespace ChocoOs.Shell
open ProgLib
open Chat (ascii)

/-- `ARGV_MAX` (`shell.c:29`). -/
def argvMax : Nat := 16

/-- The names in `commands` (`shell.c:562-591`). -/
def commandNames : List String :=
  ["help", "fetch", "clear", "echo", "uptime", "free", "ls", "cat", "write", "mkdir", "rm", "cd", "pwd",
    "ps", "ifconfig", "ping", "nslookup", "date", "history", "sleep", "llm", "chat", "snake", "pong",
    "memmap", "testmalloc", "reboot", "shutdown"]

def isBlank (ch : UInt8) : Bool := ch == space || ch == tab

/-- A character of a word. -/
def isWordChar (ch : UInt8) : Bool := ch != 0 && !isBlank ch

/-- The C string at a place in a buffer. -/
def textAt (buf : List UInt8) (p : Nat) : List UInt8 := (buf.drop p).takeWhile (· != 0)

/-- One round of the loop that splits the line (`shell.c:614-626`): the buffer, `p`, and the pointers
    in `argv`. `none` is an access outside the buffer. -/
def splitRound : List UInt8 × Nat × List Nat →
    Option (LoopStep (List UInt8 × Nat × List Nat) (List UInt8 × List Nat))
  | (buf, p, argv) => do
    let ch ← buf[p]?
    if ch = 0 ∨ argvMax ≤ argv.length then return .done (buf, argv)
    let p := p + ((buf.drop p).takeWhile isBlank).length
    let ch ← buf[p]?
    if ch = 0 then return .done (buf, argv)
    let argv := argv ++ [p]
    let p := p + ((buf.drop p).takeWhile isWordChar).length
    let ch ← buf[p]?
    if ch = 0 then return .next (buf, p, argv)
    else return .next (buf.set p 0, p + 1, argv)

/-- What `process_command` does with the words. -/
inductive Dispatch where
  | nothing
  | run (name : String) (argv : List Nat)
  | notFound (word : List UInt8)
  deriving DecidableEq

/-- `process_command` (`shell.c:608-638`): the line as it leaves it, and the call that it makes. -/
def processCommand (line : List UInt8) : Option (List UInt8 × Dispatch) := do
  let (buf, argv) ← loop splitRound (argvMax + 1) (line, 0, [])
  match argv with
  | [] => return (buf, .nothing)
  | p :: _ =>
    match commandNames.find? fun name => strcmp (textAt buf p) (ascii name) = 0 with
    | some name => return (buf, .run name argv)
    | none => return (buf, .notFound (textAt buf p))

/-! ## Splitting -/

theorem isBlank_zero : isBlank 0 = false := rfl

/-- A scan stops behind the characters it runs over. -/
theorem scan_length {q : UInt8 → Bool} {run : List UInt8} {y : UInt8}
    (hrun : ∀ x ∈ run, q x = true) (hy : q y = false) (pre post : List UInt8) :
    (((pre ++ run ++ y :: post).drop pre.length).takeWhile q).length = run.length := by
  rw [List.append_assoc, List.drop_left, List.takeWhile_append_of_pos hrun,
    List.takeWhile_cons_of_neg (by rw [hy]; exact Bool.false_ne_true), List.append_nil]

theorem getElem?_behind (pre post : List UInt8) (y : UInt8) :
    (pre ++ y :: post)[pre.length]? = some y := by
  rw [List.getElem?_append_right (Nat.le_refl _), Nat.sub_self]
  rfl

/-- Only blanks are left. -/
theorem splitRound_end {blanks : List UInt8} (hblanks : ∀ x ∈ blanks, isBlank x = true)
    (pre post : List UInt8) (argv : List Nat) :
    splitRound (pre ++ blanks ++ 0 :: post, pre.length, argv) =
      some (.done (pre ++ blanks ++ 0 :: post, argv)) := by
  have hend : (pre ++ blanks ++ 0 :: post)[pre.length + blanks.length]? = some 0 := by
    rw [← List.length_append]
    exact getElem?_behind ..
  obtain ⟨ch, hch⟩ : ∃ ch, (pre ++ blanks ++ 0 :: post)[pre.length]? = some ch :=
    ⟨_, List.getElem?_eq_getElem (by simp only [List.length_append, List.length_cons]; omega)⟩
  simp only [splitRound, hch, scan_length hblanks isBlank_zero, hend, Option.bind_eq_bind,
    Option.bind_some, if_true]
  split <;> rfl

/-- There is no room for another word. -/
theorem splitRound_full {argv : List Nat} (hargv : argvMax ≤ argv.length) (pre post : List UInt8) (y : UInt8) :
    splitRound (pre ++ y :: post, pre.length, argv) = some (.done (pre ++ y :: post, argv)) := by
  simp only [splitRound, getElem?_behind, Option.bind_eq_bind, Option.bind_some, hargv, or_true, if_true]
  rfl

/-- The next word, and the character behind it, which becomes a terminator. -/
theorem splitRound_word {blanks word : List UInt8} {y : UInt8} {argv : List Nat}
    (hblanks : ∀ x ∈ blanks, isBlank x = true) (hword : ∀ x ∈ word, isWordChar x = true)
    (hne : word ≠ []) (hy : isWordChar y = false) (hargv : argv.length < argvMax) (pre post : List UInt8) :
    splitRound (pre ++ blanks ++ word ++ y :: post, pre.length, argv) =
      some (.next (pre ++ blanks ++ word ++ 0 :: post,
        (pre ++ blanks ++ word).length + if y = 0 then 0 else 1, argv ++ [(pre ++ blanks).length])) := by
  obtain ⟨w, ws, rfl⟩ := List.exists_cons_of_ne_nil hne
  have hw := hword w (List.mem_cons_self ..)
  have hwblank : isBlank w = false := by
    rw [isWordChar, Bool.and_eq_true, Bool.not_eq_true'] at hw
    exact hw.2
  have hne0 : ∀ x, isBlank x = true ∨ isWordChar x = true → x ≠ 0 := by
    rintro x hx rfl
    exact absurd hx (by decide)
  -- the character at which the round begins
  obtain ⟨ch, hch, hch0⟩ : ∃ ch, (pre ++ blanks ++ w :: ws ++ y :: post)[pre.length]? = some ch ∧ ch ≠ 0 := by
    cases blanks with
    | nil =>
      refine ⟨w, ?_, hne0 w (.inr hw)⟩
      rw [List.append_nil, List.append_assoc, List.cons_append]
      exact getElem?_behind ..
    | cons b blanks =>
      refine ⟨b, ?_, hne0 b (.inl (hblanks b (List.mem_cons_self ..)))⟩
      rw [List.append_assoc, List.append_assoc, List.cons_append]
      exact getElem?_behind ..
  have hskip : (((pre ++ blanks ++ w :: ws ++ y :: post).drop pre.length).takeWhile isBlank).length =
      blanks.length := by
    rw [List.append_assoc _ (w :: ws), List.cons_append]
    exact scan_length hblanks hwblank ..
  have hfirst : (pre ++ blanks ++ w :: ws ++ y :: post)[(pre ++ blanks).length]? = some w := by
    rw [List.append_assoc _ (w :: ws), List.cons_append]
    exact getElem?_behind ..
  have hrun := scan_length hword hy (pre ++ blanks) post
  have hlast := getElem?_behind (pre ++ blanks ++ w :: ws) post y
  have hset : (pre ++ blanks ++ w :: ws ++ y :: post).set (pre ++ blanks ++ w :: ws).length 0 =
      pre ++ blanks ++ w :: ws ++ 0 :: post := by
    rw [List.set_append_right _ _ (Nat.le_refl _), Nat.sub_self, List.set_cons_zero]
  have hroom : ¬ (ch = 0 ∨ argvMax ≤ argv.length) := by
    rintro (h | h)
    · exact hch0 h
    · exact absurd hargv (Nat.not_lt.mpr h)
  simp only [splitRound, hch, hskip, ← List.length_append, hfirst, hrun, hlast, hset, hroom,
    hne0 w (.inr hw), Option.bind_eq_bind, Option.bind_some, if_false, Option.pure_def]
  by_cases hy0 : y = 0
  · rw [if_pos hy0, if_pos hy0, hy0]
    rfl
  · rw [if_neg hy0, if_neg hy0]

theorem fields_blanks_append {blanks : List UInt8} (h : ∀ x ∈ blanks, isBlank x = true) (xs : List UInt8) :
    fields isBlank (blanks ++ xs) = fields isBlank xs := by
  rw [← fields_dropWhile, ← fields_dropWhile isBlank xs, List.dropWhile_append_of_pos h]

/-- What is left of a line: blanks, or a word, which is its first field, and what follows the word. -/
theorem blanks_or_word {rest : List UInt8} (hzero : 0 ∉ rest) : (∀ x ∈ rest, isBlank x = true) ∨
    ∃ blanks word after, rest = blanks ++ word ++ after ∧ (∀ x ∈ blanks, isBlank x = true) ∧
      (∀ x ∈ word, isWordChar x = true) ∧ word ≠ [] ∧ (∀ b ∈ after.head?, isBlank b = true) ∧
      fields isBlank rest = word :: fields isBlank after := by
  have hblanks : ∀ x ∈ rest.takeWhile isBlank, isBlank x = true := fun x hx => List.mem_takeWhile_imp hx
  have hsplit := List.takeWhile_append_dropWhile (p := isBlank) (l := rest)
  have hhead := List.head?_dropWhile_not isBlank rest
  cases hrest : rest.dropWhile isBlank with
  | nil =>
    rw [hrest, List.append_nil] at hsplit
    rw [hsplit] at hblanks
    exact .inl hblanks
  | cons w ws =>
    rw [hrest] at hsplit hhead
    have hw : isBlank w = false := by simpa using hhead
    have hword := List.takeWhile_append_dropWhile (p := fun x => !isBlank x) (l := w :: ws)
    refine .inr ⟨_, (w :: ws).takeWhile fun x => !isBlank x, (w :: ws).dropWhile fun x => !isBlank x, ?_, hblanks,
      ?_, ?_, ?_, ?_⟩
    · rw [List.append_assoc, hword, hsplit]
    · intro x hx
      have hblank := List.mem_takeWhile_imp (p := fun x => !isBlank x) hx
      have hx0 : x ≠ 0 := by
        rintro rfl
        apply hzero
        rw [← hsplit, ← hword]
        exact List.mem_append_right _ (List.mem_append_left _ hx)
      rw [isWordChar, Bool.and_eq_true]
      exact ⟨bne_iff_ne.mpr hx0, hblank⟩
    · rw [List.takeWhile_cons_of_pos (by rw [hw]; rfl)]
      exact List.cons_ne_nil _ _
    · intro b hb
      have hend := List.head?_dropWhile_not (fun x => !isBlank x) (w :: ws)
      rw [Option.mem_def.mp hb] at hend
      simpa using hend
    · rw [← fields_eq_cons hw, ← hsplit, fields_blanks_append hblanks]

theorem textAt_word {pre word : List UInt8} (hword : ∀ x ∈ word, isWordChar x = true) (post : List UInt8) :
    textAt (pre ++ word ++ 0 :: post) pre.length = word := by
  have hne0 : ∀ x ∈ word, (x != 0) = true := by
    intro x hx
    have h := hword x hx
    rw [isWordChar, Bool.and_eq_true] at h
    exact h.1
  rw [textAt, List.append_assoc, List.drop_left, List.takeWhile_append_of_pos hne0,
    List.takeWhile_cons_of_neg (by decide), List.append_nil]

/-- The loop from a place in the line on: what lies in front of it stays, and there is room for `n` more
    words. -/
theorem splitLoop (n : Nat) : ∀ (rest pre post : List UInt8) (argv : List Nat),
    argv.length + n = argvMax → 0 ∉ rest → ∃ buf ptrs,
      loop splitRound (n + 1) (pre ++ rest ++ 0 :: post, pre.length, argv) = some (buf, argv ++ ptrs) ∧
      buf.take pre.length = pre ∧ ptrs.map (textAt buf) = (fields isBlank rest).take n := by
  induction n with
  | zero =>
    intro rest pre post argv hargv _
    refine ⟨pre ++ rest ++ 0 :: post, [], ?_, ?_, by rw [List.take_zero, List.map_nil]⟩
    · obtain ⟨y, post', hcons⟩ : ∃ y post', rest ++ 0 :: post = y :: post' :=
        List.exists_cons_of_ne_nil (List.append_ne_nil_of_right_ne_nil _ (List.cons_ne_nil _ _))
      rw [List.append_nil, List.append_assoc, hcons]
      exact loop_of_done (splitRound_full (Nat.le_of_eq hargv.symm) ..)
    · rw [List.append_assoc, List.take_left]
  | succ n ih =>
    intro rest pre post argv hargv hzero
    obtain hblanks | ⟨blanks, word, after, rfl, hblanks, hchars, hne, hafter, hfields⟩ := blanks_or_word hzero
    · refine ⟨pre ++ rest ++ 0 :: post, [], ?_, ?_, ?_⟩
      · rw [List.append_nil]
        exact loop_of_done (splitRound_end hblanks ..)
      · rw [List.append_assoc, List.take_left]
      · rw [fields_seps hblanks, List.take_nil, List.map_nil]
    · have hroom : argv.length < argvMax := by omega
      have hnext : (argv ++ [(pre ++ blanks).length]).length + n = argvMax := by
        rw [List.length_append, List.length_singleton]
        omega
      rw [hfields, List.take_succ_cons]
      cases after with
      | nil =>
        -- the word ends with the line, and the next round leaves
        have hround := splitRound_word hblanks hchars hne (y := 0) rfl hroom pre post
        have hdone := @splitRound_end [] (fun _ h => absurd h List.not_mem_nil)
          (pre ++ blanks ++ word) post (argv ++ [(pre ++ blanks).length])
        rw [List.append_nil] at hdone
        refine ⟨pre ++ blanks ++ word ++ 0 :: post, [(pre ++ blanks).length], ?_, ?_, ?_⟩
        · rw [List.append_nil, ← List.append_assoc pre, loop_of_next hround, if_pos rfl]
          exact loop_of_done hdone
        · rw [List.append_assoc, List.append_assoc, List.take_left]
        · rw [List.map_singleton, textAt_word hchars, fields_nil, List.take_nil]
      | cons b after =>
        have hb : isBlank b = true := hafter b rfl
        have hb0 : b ≠ 0 := by
          rintro rfl
          exact absurd hb (by decide)
        have hround := splitRound_word hblanks hchars hne (y := b)
          (by rw [isWordChar, hb]; exact Bool.and_false _) hroom pre (after ++ 0 :: post)
        have hafter0 : 0 ∉ after := fun h => hzero (List.mem_append_right _ (List.mem_cons_of_mem _ h))
        obtain ⟨buf, ptrs, hloop, htake, htexts⟩ := ih after (pre ++ blanks ++ word ++ [0]) post
          (argv ++ [(pre ++ blanks).length]) hnext hafter0
        -- what the word and its terminator occupy is not written again
        have hbuf : buf = pre ++ blanks ++ word ++ 0 :: buf.drop (pre ++ blanks ++ word ++ [0]).length := by
          have h := List.take_append_drop (pre ++ blanks ++ word ++ [0]).length buf
          rw [htake, List.append_assoc, List.singleton_append] at h
          exact h.symm
        refine ⟨buf, (pre ++ blanks).length :: ptrs, ?_, ?_, ?_⟩
        · have hline : pre ++ (blanks ++ word ++ b :: after) ++ 0 :: post =
              pre ++ blanks ++ word ++ b :: (after ++ 0 :: post) := by
            simp only [List.append_assoc, List.cons_append]
          have hrest : pre ++ blanks ++ word ++ 0 :: (after ++ 0 :: post) =
              pre ++ blanks ++ word ++ [0] ++ after ++ 0 :: post := by
            simp only [List.append_assoc, List.cons_append, List.nil_append]
          rw [List.append_cons argv, ← hloop, hline, loop_of_next hround, if_neg hb0, hrest,
            @List.length_append _ _ [0], List.length_singleton]
        · rw [hbuf, List.append_assoc, List.append_assoc, List.take_left]
        · rw [List.map_cons, htexts, fields_cons_sep hb, hbuf, textAt_word hchars]

/-! ## The words reach the command -/

/-- What `process_command` makes of the words of a line. -/
def Dispatched (words : List (List UInt8)) (buf : List UInt8) : Dispatch → Prop
  | .nothing => words = []
  | .run name argv => name ∈ commandNames ∧ words.head? = some (ascii name) ∧
      argv.map (textAt buf) = words.take argvMax ∧ argv.length = min words.length argvMax
  | .notFound word => words.head? = some word ∧ ∀ name ∈ commandNames, word ≠ ascii name

theorem zero_notMem_textAt (buf : List UInt8) (p : Nat) : 0 ∉ textAt buf p := by
  intro h
  have h0 := List.mem_takeWhile_imp h
  exact absurd h0 (by decide)

theorem zero_notMem_commandNames : ∀ name ∈ commandNames, 0 ∉ ascii name := by decide

theorem strcmp_textAt_eq_zero {buf : List UInt8} {p : Nat} {name : String} (h : name ∈ commandNames) :
    strcmp (textAt buf p) (ascii name) = 0 ↔ textAt buf p = ascii name :=
  (strcmp_eq_zero (s := ⟨_, zero_notMem_textAt buf p⟩) (t := ⟨_, zero_notMem_commandNames name h⟩)).trans
    Subtype.ext_iff

/-- A known command gets the first words of its line, at most 16 of them, and their number. -/
theorem processCommand_words (line tail : List UInt8) (hzero : 0 ∉ line) :
    ∃ buf d, processCommand (line ++ 0 :: tail) = some (buf, d) ∧
      Dispatched (fields isBlank line) buf d := by
  obtain ⟨buf, ptrs, hloop, -, htexts⟩ := splitLoop argvMax line [] tail [] rfl hzero
  rw [List.nil_append, List.nil_append, List.length_nil] at hloop
  have hlen := congrArg List.length htexts
  rw [List.length_map, List.length_take] at hlen
  cases ptrs with
  | nil =>
    refine ⟨buf, .nothing, ?_, ?_⟩
    · rw [processCommand, hloop]
      rfl
    · show fields isBlank line = []
      rw [List.length_nil] at hlen
      apply List.eq_nil_of_length_eq_zero
      have h16 : argvMax = 16 := rfl
      omega
  | cons p ptrs =>
    have hfirst : (fields isBlank line).head? = some (textAt buf p) := by
      have h := congrArg List.head? htexts
      rw [List.map_cons, List.head?_cons, List.head?_take, if_neg (by decide)] at h
      exact h.symm
    cases hfind : commandNames.find? (fun name => strcmp (textAt buf p) (ascii name) = 0) with
    | some name =>
      have hmem := List.mem_of_find?_eq_some hfind
      have heq := of_decide_eq_true
        (List.find?_some (p := fun name => decide (strcmp (textAt buf p) (ascii name) = 0)) hfind)
      refine ⟨buf, .run name (p :: ptrs), ?_, hmem, ?_, htexts, by rw [hlen, Nat.min_comm]⟩
      · rw [processCommand, hloop]
        simp only [Option.bind_eq_bind, Option.bind_some, hfind]
        rfl
      · rw [hfirst, (strcmp_textAt_eq_zero hmem).mp heq]
    | none =>
      refine ⟨buf, .notFound (textAt buf p), ?_, hfirst, ?_⟩
      · rw [processCommand, hloop]
        simp only [Option.bind_eq_bind, Option.bind_some, hfind]
        rfl
      · intro name hname heq
        have hno := List.find?_eq_none.mp hfind name hname
        exact hno (decide_eq_true ((strcmp_textAt_eq_zero hname).mpr heq))

theorem processCommand_words_echo : ∃ buf d, processCommand (ascii "echo\t a" ++ 0 :: []) = some (buf, d) ∧
    Dispatched (fields isBlank (ascii "echo\t a")) buf d :=
  processCommand_words (ascii "echo\t a") [] (by decide)

/-- `echo` and sixteen letters. -/
def seventeenWords : List UInt8 := ascii "echo" ++ (List.replicate 16 [space, 97]).flatten

/-- The last of 17 words is lost. -/
theorem processCommand_seventeen : ¬ ∀ line tail buf name argv, line.length < lineMax → 0 ∉ line →
    processCommand (line ++ 0 :: tail) = some (buf, .run name argv) →
    argv.map (textAt buf) = fields isBlank line := by
  intro h
  obtain ⟨buf, argv, hrun, hlen⟩ : ∃ buf argv,
      processCommand (seventeenWords ++ [0]) = some (buf, .run "echo" argv) ∧ argv.length = 16 :=
    ⟨_, _, rfl, rfl⟩
  have hwords := congrArg List.length (h seventeenWords [] buf "echo" argv (by decide) (by decide) hrun)
  rw [List.length_map, hlen] at hwords
  exact absurd hwords (by decide)

end ChocoOs.Shell
