import ChocoOs.Kprintf.Cursor
import ChocoOs.Kprintf.Number

/-!
# Formatting into a bounded buffer

The text of a format does not depend on the buffer. What does not fit is counted but not written.
-/

namespace ChocoOs.Kprintf
open ProgLib

/-! ## The text -/

/-- What a conversion prints, and the arguments that it leaves. -/
def conversionText (args : List Arg) (left zeroPad : Bool) (width longs : Nat) (k : UInt8) :
    Option (List UInt8 × List Arg) :=
  if k = 115 then
    match args with
    | .str s :: args =>
      let s := (s.map Subtype.val).getD nullText
      let pad := List.replicate ((width : Int) - s.length).toNat 32
      some (if left then s ++ pad else pad ++ s, args)
    | _ => none
  else if k = 99 then
    match args with
    | .word v :: args => some ([v.toUInt8], args)
    | _ => none
  else if k = 100 ∨ k = 105 then
    match args with
    | .word v :: args =>
      let v := signedArg longs v
      some (numberText v.natAbs 10 (decide (v < 0)) false width zeroPad left, args)
    | _ => none
  else if k = 117 then
    match args with
    | .word v :: args => some (numberText (unsignedArg longs v) 10 false false width zeroPad left, args)
    | _ => none
  else if k = 120 ∨ k = 88 then
    match args with
    | .word v :: args =>
      some (numberText (unsignedArg longs v) 16 false (decide (k = 88)) width zeroPad left, args)
    | _ => none
  else if k = 112 then
    match args with
    | .word v :: args => some ([48, 120] ++ numberText v.toNat 16 false false 16 true false, args)
    | _ => none
  else if k = 37 then some ([37], args)
  else some ([37, k], args)

/-- What stands between the `%` and the conversion, and what follows. -/
structure Directive where
  left : Bool
  zeroPad : Bool
  width : Nat
  longs : Nat
  rest : List UInt8

def readDirective (fmt : List UInt8) : Directive :=
  let (left, zeroPad, fmt) := readFlags false false fmt
  let (width, fmt) := readWidth 0 fmt
  let (longs, fmt) := readLongs 0 fmt
  let (longs, fmt) := if fmt.head? = some 122 then (2, fmt.tail) else (longs, fmt)
  ⟨left, zeroPad, width, longs, fmt⟩

/-- The text of a format, for at most `fuel` rounds of the loop. -/
def formatText : Nat → List UInt8 → List Arg → Option (List UInt8)
  | 0, _, _ => none
  | _ + 1, [], _ => some []
  | fuel + 1, c :: fmt, args =>
    if c ≠ 37 then (formatText fuel fmt args).map ([c] ++ ·)
    else
      let d := readDirective fmt
      match d.rest with
      | [] => (formatText fuel [] args).map ([37] ++ ·)
      | k :: fmt =>
        (conversionText args d.left d.zeroPad d.width d.longs k).bind fun (t, args) =>
          (formatText fuel fmt args).map (t ++ ·)

/-! ## The text and the buffer -/

/-- A 64-bit number and its sign fit into `tmp`. -/
theorem length_numberTmp {value base : Nat} (negative upper : Bool) (hvalue : value < 2 ^ 64)
    (hbase : base = 10 ∨ base = 16) : (numberTmp value base negative upper).length ≤ 32 := by
  have hdigits : (if value = 0 then [48] else digitsOf base upper value value).length ≤ 31 := by
    split
    · exact (show [(48 : UInt8)].length ≤ 31 by decide)
    · rcases hbase with rfl | rfl
      · exact length_digitsOf (by decide) 31 _ _ (Nat.lt_trans hvalue (by decide))
      · exact length_digitsOf (by decide) 31 _ _ (Nat.lt_trans hvalue (by decide))
  have hsign : (if negative then [(45 : UInt8)] else []).length ≤ 1 := by
    cases negative with
    | true => exact Nat.le_refl 1
    | false => exact Nat.zero_le 1
  rw [numberTmp, List.length_append]
  exact Nat.add_le_add hdigits hsign

theorem unsignedArg_lt (longs : Nat) (v : UInt64) : unsignedArg longs v < 2 ^ 64 := by
  rw [unsignedArg]
  split
  · exact v.toNat_lt
  · exact Nat.lt_trans (Nat.mod_lt _ (by decide)) (by decide)

theorem natAbs_signedArg_lt (longs : Nat) (v : UInt64) : (signedArg longs v).natAbs < 2 ^ 64 := by
  rw [signedArg]
  split
  · have hle := BitVec.le_toInt v.toBitVec
    have hlt := BitVec.toInt_lt (x := v.toBitVec)
    omega
  · have hle := BitVec.le_toInt (v.toBitVec.setWidth 32)
    have hlt := BitVec.toInt_lt (x := v.toBitVec.setWidth 32)
    omega

theorem outString_singleton (o : OutBuf) (c : UInt8) : outString o [c] = outChar o c := by
  rw [outString, List.foldlM_cons]
  cases outChar o c <;> rfl

/-- A padded string is one text. -/
theorem padded_eq (o : OutBuf) (s : List UInt8) (left : Bool) (pad : Int) (args : List Arg) :
    (do
      let o ← if left then some o else outPad o 32 pad
      let o ← outString o s
      let o ← if left then outPad o 32 pad else some o
      return (o, args)) =
    (outString o (if left then s ++ List.replicate pad.toNat 32
      else List.replicate pad.toNat 32 ++ s)).map (·, args) := by
  cases left with
  | true =>
    simp only [if_true, outString_append, Option.bind_eq_bind, Option.bind_some]
    cases outString o s with
    | none => rfl
    | some o =>
      simp only [Option.bind_some, outPad]
      cases outString o _ <;> rfl
  | false =>
    simp only [Bool.false_eq_true, if_false, outString_append, Option.bind_eq_bind, outPad]
    cases outString o _ with
    | none => rfl
    | some o =>
      simp only [Option.bind_some]
      cases outString o s <;> rfl

theorem conversion_eq (o : OutBuf) (args : List Arg) (left zeroPad : Bool) (width longs : Nat)
    (k : UInt8) : conversion o args left zeroPad width longs k =
      (conversionText args left zeroPad width longs k).bind fun (t, args) =>
        (outString o t).map (·, args) := by
  unfold conversion conversionText
  by_cases hs : k = 115
  · rw [if_pos hs, if_pos hs]
    match args with
    | [] => rfl
    | .word _ :: _ => rfl
    | .str s :: args =>
      exact padded_eq o ((s.map Subtype.val).getD nullText) left
        (width - ((s.map Subtype.val).getD nullText).length) args
  rw [if_neg hs, if_neg hs]
  by_cases hc : k = 99
  · rw [if_pos hc, if_pos hc]
    match args with
    | [] => rfl
    | .str _ :: _ => rfl
    | .word v :: args =>
      simp only [Option.bind_some, outString_singleton]
  rw [if_neg hc, if_neg hc]
  by_cases hd : k = 100 ∨ k = 105
  · rw [if_pos hd, if_pos hd]
    match args with
    | [] => rfl
    | .str _ :: _ => rfl
    | .word v :: args =>
      simp only [outNumber_eq o _ zeroPad left
        (length_numberTmp _ _ (natAbs_signedArg_lt longs v) (.inl rfl)), Option.bind_some]
  rw [if_neg hd, if_neg hd]
  by_cases hu : k = 117
  · rw [if_pos hu, if_pos hu]
    match args with
    | [] => rfl
    | .str _ :: _ => rfl
    | .word v :: args =>
      simp only [outNumber_eq o _ zeroPad left
        (length_numberTmp _ _ (unsignedArg_lt longs v) (.inl rfl)), Option.bind_some]
  rw [if_neg hu, if_neg hu]
  by_cases hx : k = 120 ∨ k = 88
  · rw [if_pos hx, if_pos hx]
    match args with
    | [] => rfl
    | .str _ :: _ => rfl
    | .word v :: args =>
      simp only [outNumber_eq o _ zeroPad left
        (length_numberTmp _ _ (unsignedArg_lt longs v) (.inr rfl)), Option.bind_some]
  rw [if_neg hx, if_neg hx]
  by_cases hp : k = 112
  · rw [if_pos hp, if_pos hp]
    match args with
    | [] => rfl
    | .str _ :: _ => rfl
    | .word v :: args =>
      simp only [Option.bind_some, outString_append, outNumber_eq _ _ true false
        (length_numberTmp _ _ v.toNat_lt (.inr rfl))]
      cases outString o [48, 120] with
      | none => rfl
      | some o =>
        simp only [Option.bind_eq_bind, Option.bind_some]
        cases outString o _ <;> rfl
  rw [if_neg hp, if_neg hp]
  by_cases hpercent : k = 37
  · rw [if_pos hpercent, if_pos hpercent]
    simp only [Option.bind_some, outString_singleton]
  · rw [if_neg hpercent, if_neg hpercent, Option.bind_some]

/-- A round at a directive. -/
theorem fmtRound_directive (fmt : List UInt8) (args : List Arg) (o : OutBuf) :
    fmtRound (37 :: fmt, args, o) = match (readDirective fmt).rest with
      | [] => (outChar o 37).map fun o => .next ([], args, o)
      | k :: rest => (conversion o args (readDirective fmt).left (readDirective fmt).zeroPad
          (readDirective fmt).width (readDirective fmt).longs k).map
            fun (o, args) => .next (rest, args, o) := rfl

/-- The loop over the format writes the text of the format. -/
theorem loop_fmtRound (fuel : Nat) : ∀ (fmt : List UInt8) (args : List Arg) (o : OutBuf),
    loop fmtRound fuel (fmt, args, o) = (formatText fuel fmt args).bind (outString o) := by
  induction fuel with
  | zero => exact fun _ _ _ => rfl
  | succ fuel ih =>
    intro fmt args o
    -- a round that writes `t` and goes on with the rest of the format
    have hnext : ∀ (t fmt' : List UInt8) (args' : List Arg),
        fmtRound (fmt, args, o) = (outString o t).map (fun o => .next (fmt', args', o)) →
        loop fmtRound (fuel + 1) (fmt, args, o) =
          ((formatText fuel fmt' args').map (t ++ ·)).bind (outString o) := by
      intro t fmt' args' hround
      have htail : ((formatText fuel fmt' args').map (t ++ ·)).bind (outString o) =
          (outString o t).bind fun o => (formatText fuel fmt' args').bind (outString o) := by
        cases formatText fuel fmt' args' with
        | none => cases outString o t <;> rfl
        | some u => exact outString_append o t u
      rw [htail]
      cases ht : outString o t with
      | none =>
        rw [ht] at hround
        simp only [loop, hround, Option.map_none, Option.bind_none]
      | some o' =>
        rw [ht] at hround
        rw [loop_of_next hround, ih, Option.bind_some]
    cases fmt with
    | nil => rfl
    | cons c fmt =>
      rw [formatText]
      by_cases hc : c ≠ 37
      · rw [if_pos hc]
        apply hnext
        rw [fmtRound, if_pos hc, outString_singleton]
      · rw [if_neg hc]
        rw [not_not] at hc
        subst hc
        have hround := fmtRound_directive fmt args o
        cases hrest : (readDirective fmt).rest with
        | nil =>
          rw [hrest] at hround
          simp only [hrest]
          apply hnext
          rw [hround, outString_singleton]
        | cons k rest =>
          simp only [hrest, conversion_eq] at hround ⊢
          cases hconv : conversionText args (readDirective fmt).left (readDirective fmt).zeroPad
              (readDirective fmt).width (readDirective fmt).longs k with
          | none =>
            rw [hconv] at hround
            simp only [loop, hround, Option.bind_none, Option.map_none]
          | some r =>
            rw [hconv, Option.bind_some, Option.map_map] at hround
            rw [Option.bind_some]
            exact hnext r.1 rest r.2 hround

/-! ## Matching arguments -/

inductive ArgKind where
  | word
  | str
  deriving DecidableEq

def Arg.kind : Arg → ArgKind
  | .word _ => .word
  | .str _ => .str

/-- What a conversion takes. -/
def conversionKinds (k : UInt8) : List ArgKind :=
  if k = 115 then [.str]
  else if k = 99 ∨ k = 100 ∨ k = 105 ∨ k = 117 ∨ k = 120 ∨ k = 88 ∨ k = 112 then [.word] else []

def kindsFrom : Nat → List UInt8 → List ArgKind
  | 0, _ => []
  | _ + 1, [] => []
  | fuel + 1, c :: fmt =>
    if c ≠ 37 then kindsFrom fuel fmt
    else
      match (readDirective fmt).rest with
      | [] => []
      | k :: fmt => conversionKinds k ++ kindsFrom fuel fmt

/-- What a format takes, in order. -/
def kinds (fmt : List UInt8) : List ArgKind := kindsFrom (fmt.length + 1) fmt

theorem exists_of_prefix {kind : ArgKind} {ks : List ArgKind} {args : List Arg}
    (h : kind :: ks <+: args.map Arg.kind) :
    ∃ a args', args = a :: args' ∧ a.kind = kind ∧ ks <+: args'.map Arg.kind := by
  cases args with
  | nil => exact absurd (List.prefix_nil.mp h) (List.cons_ne_nil _ _)
  | cons a args =>
    rw [List.map_cons, List.cons_prefix_cons] at h
    exact ⟨a, args, rfl, h.1.symm, h.2⟩

theorem exists_word {ks : List ArgKind} {args : List Arg} (h : .word :: ks <+: args.map Arg.kind) :
    ∃ v args', args = .word v :: args' ∧ ks <+: args'.map Arg.kind := by
  obtain ⟨a, args', rfl, hkind, hrest⟩ := exists_of_prefix h
  cases a with
  | word v => exact ⟨v, args', rfl, hrest⟩
  | str s => cases hkind

theorem exists_str {ks : List ArgKind} {args : List Arg} (h : .str :: ks <+: args.map Arg.kind) :
    ∃ s args', args = .str s :: args' ∧ ks <+: args'.map Arg.kind := by
  obtain ⟨a, args', rfl, hkind, hrest⟩ := exists_of_prefix h
  cases a with
  | word v => cases hkind
  | str s => exact ⟨s, args', rfl, hrest⟩

/-- A conversion finds its argument. -/
theorem conversionText_total {ks : List ArgKind} {args : List Arg} {k : UInt8}
    (h : conversionKinds k ++ ks <+: args.map Arg.kind) (left zeroPad : Bool) (width longs : Nat) :
    ∃ t args', conversionText args left zeroPad width longs k = some (t, args') ∧
      ks <+: args'.map Arg.kind := by
  unfold conversionKinds at h
  unfold conversionText
  by_cases hs : k = 115
  · rw [if_pos hs] at h ⊢
    obtain ⟨s, args', rfl, hrest⟩ := exists_str h
    exact ⟨_, args', rfl, hrest⟩
  rw [if_neg hs] at h ⊢
  by_cases hword : k = 99 ∨ k = 100 ∨ k = 105 ∨ k = 117 ∨ k = 120 ∨ k = 88 ∨ k = 112
  · rw [if_pos hword] at h
    obtain ⟨v, args', rfl, hrest⟩ := exists_word h
    by_cases hc : k = 99
    · exact ⟨_, args', if_pos hc, hrest⟩
    rw [if_neg hc]
    by_cases hd : k = 100 ∨ k = 105
    · exact ⟨_, args', if_pos hd, hrest⟩
    rw [if_neg hd]
    by_cases hu : k = 117
    · exact ⟨_, args', if_pos hu, hrest⟩
    rw [if_neg hu]
    by_cases hx : k = 120 ∨ k = 88
    · exact ⟨_, args', if_pos hx, hrest⟩
    rw [if_neg hx]
    have hp : k = 112 := by
      rcases hword with h | h | h | h | h | h | h
      · exact absurd h hc
      · exact absurd (.inl h) hd
      · exact absurd (.inr h) hd
      · exact absurd h hu
      · exact absurd (.inl h) hx
      · exact absurd (.inr h) hx
      · exact h
    exact ⟨_, args', if_pos hp, hrest⟩
  · rw [if_neg hword, List.nil_append] at h
    simp only [not_or] at hword
    obtain ⟨hc, hd, hi, hu, hx, hX, hp⟩ := hword
    rw [if_neg hc, if_neg (not_or.mpr ⟨hd, hi⟩), if_neg hu, if_neg (not_or.mpr ⟨hx, hX⟩), if_neg hp]
    by_cases hpercent : k = 37
    · exact ⟨_, args, if_pos hpercent, h⟩
    · exact ⟨_, args, if_neg hpercent, h⟩

theorem length_rest_le (fmt : List UInt8) : (readDirective fmt).rest.length ≤ fmt.length := by
  have hflags : (readFlags false false fmt).2.2.length ≤ fmt.length := by
    rw [show readFlags false false fmt = _ from readFlags_eq (false, false) fmt]
    exact scanList_length _ _
  have hwidth := scanList_length (f := widthStep) 0 (readFlags false false fmt).2.2
  have hlongs := scanList_length (f := longStep) 0 (readWidth 0 (readFlags false false fmt).2.2).2
  rw [← readWidth_eq] at hwidth
  rw [← readLongs_eq] at hlongs
  have hall := hlongs.trans (hwidth.trans hflags)
  simp only [readDirective]
  split
  · rw [List.length_tail]
    exact Nat.le_trans (Nat.sub_le _ _) hall
  · exact hall

/-- Every format has a text for the arguments that it takes. -/
theorem formatText_total (fuel : Nat) : ∀ (fmt : List UInt8) (args : List Arg), fmt.length < fuel →
    kindsFrom fuel fmt <+: args.map Arg.kind → ∃ text, formatText fuel fmt args = some text := by
  induction fuel with
  | zero => exact fun fmt _ h _ => absurd h (Nat.not_lt_zero _)
  | succ fuel ih =>
    intro fmt args hfuel hargs
    cases fmt with
    | nil => exact ⟨[], rfl⟩
    | cons c fmt =>
      rw [List.length_cons] at hfuel
      have hlt : fmt.length < fuel := Nat.lt_of_succ_lt_succ hfuel
      rw [formatText]
      rw [kindsFrom] at hargs
      by_cases hc : c ≠ 37
      · rw [if_pos hc] at hargs ⊢
        obtain ⟨text, htext⟩ := ih fmt args hlt hargs
        exact ⟨[c] ++ text, by rw [htext]; rfl⟩
      rw [if_neg hc] at hargs ⊢
      have hrest := length_rest_le fmt
      cases hd : (readDirective fmt).rest with
      | nil =>
        simp only [hd] at hargs ⊢
        obtain ⟨text, htext⟩ := ih [] args (Nat.zero_lt_of_lt hlt) (by
          cases fuel with
          | zero => exact absurd hlt (Nat.not_lt_zero _)
          | succ fuel => exact List.nil_prefix)
        exact ⟨[37] ++ text, by rw [htext]; rfl⟩
      | cons k rest =>
        rw [hd, List.length_cons] at hrest
        simp only [hd] at hargs ⊢
        obtain ⟨t, args', hconv, hargs'⟩ := conversionText_total hargs (readDirective fmt).left
          (readDirective fmt).zeroPad (readDirective fmt).width (readDirective fmt).longs
        obtain ⟨text, htext⟩ := ih rest args' (by omega) hargs'
        refine ⟨t ++ text, ?_⟩
        rw [hconv, Option.bind_some, htext]
        rfl

/-! ## Truncation -/

/-- The first characters of a text and a terminator, in a buffer of which `size` bytes may be used. -/
def truncated (buf : List UInt8) (size : Nat) (text : List UInt8) : List UInt8 :=
  if size = 0 then buf
  else text.take (size - 1) ++ 0 :: buf.drop (min text.length (size - 1) + 1)

/-- In every buffer the call leaves what fits of the text, and it returns the length of the text. -/
def Produces (fmt : CString) (args : List Arg) (text : List UInt8) : Prop :=
  ∀ (size : Nat) (buf : List UInt8), size ≤ buf.length →
    vsnprintfAt buf size fmt args = some (truncated buf size text, text.length)

theorem produces_of_formatText {fmt : CString} {args : List Arg} {text : List UInt8}
    (h : formatText (fmt.1.length + 1) fmt.1 args = some text) : Produces fmt args text := by
  intro size buf hsize
  rw [vsnprintfAt_eq, vsnprintf, loop_fmtRound, h, Option.bind_some, outString_eq hsize]
  simp only [Option.bind_eq_bind, Option.bind_some, OutBuf.write, Nat.zero_add, Nat.sub_zero,
    List.take_zero, List.nil_append, truncated]
  by_cases h0 : size = 0
  · subst h0
    rw [if_pos rfl, if_pos rfl]
    rfl
  rw [if_neg h0, if_neg h0]
  have hmin : (if text.length < size - 1 then text.length else size - 1) =
      (text.take (size - 1)).length := by
    rw [List.length_take]
    split <;> omega
  have hlt : (text.take (size - 1)).length < buf.length := by
    rw [List.length_take]
    omega
  have hroom : (text.take (size - 1)).length <
      (text.take (size - 1) ++ buf.drop (text.take (size - 1)).length).length := by
    rw [List.length_append, List.length_drop]
    omega
  rw [hmin, if_pos hroom, List.set_append_right _ _ (Nat.le_refl _), Nat.sub_self,
    List.drop_eq_getElem_cons hlt, List.set_cons_zero, List.length_take, Nat.min_comm]
  rfl

/-- Whatever the format, there is a text of which every buffer gets what fits; the cursor stays inside
    the format. Widths and lengths are numbers that an `int` holds. -/
theorem vsnprintf_truncates (fmt : CString) (args : List Arg)
    (hargs : kinds fmt.1 <+: args.map Arg.kind) : ∃ text, Produces fmt args text := by
  obtain ⟨text, htext⟩ := formatText_total (fmt.1.length + 1) fmt.1 args (Nat.lt_succ_self _) hargs
  exact ⟨text, produces_of_formatText htext⟩

/-- `%5d%` -/
theorem vsnprintf_truncates_dangling :
    ∃ text, Produces ⟨[37, 53, 100, 37], by decide⟩ [.word 7] text :=
  vsnprintf_truncates _ _ (by decide)

/-- The text is the one that an unlimited buffer gets. -/
theorem Produces.unique {fmt : CString} {args : List Arg} {t u : List UInt8} (ht : Produces fmt args t)
    (hu : Produces fmt args u) : t = u := by
  have hsize : t.length + 1 ≤ (List.replicate (t.length + 1) (0 : UInt8)).length :=
    Nat.le_of_eq List.length_replicate.symm
  have heq := (ht _ _ hsize).symm.trans (hu _ _ hsize)
  simp only [Option.some.injEq, Prod.mk.injEq, truncated, Nat.add_one_ne_zero, if_false,
    Nat.add_sub_cancel] at heq
  obtain ⟨hbuf, hlen⟩ := heq
  rw [List.take_length, hlen, List.take_length] at hbuf
  exact List.append_inj_left hbuf hlen

end ChocoOs.Kprintf
