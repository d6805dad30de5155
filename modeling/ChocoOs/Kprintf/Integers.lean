import ChocoOs.Kprintf.Truncation
import Mathlib.Data.Nat.Digits.Lemmas

/-!
# Integer directives

What the C standard prescribes for `%d`, `%u`, `%x` and `%X` with the flags `-` and `0`, a field width
and `l`, and where `vsnprintf` prints something else.
-/

namespace ChocoOs.Kprintf
open ProgLib

/-! ## Directives -/

inductive Flag where
  | minus
  | zero
  deriving DecidableEq

def Flag.char : Flag → UInt8
  | .minus => 45
  | .zero => 48

inductive IntConv where
  | d
  | u
  | x
  | X
  deriving DecidableEq

def IntConv.char : IntConv → UInt8
  | .d => 100
  | .u => 117
  | .x => 120
  | .X => 88

/-- A field width in a format. The width 0 is none. -/
def widthText (width : Nat) : List UInt8 := if width = 0 then [] else numeral width

/-- What follows the `%`. -/
def directiveTail (flags : List Flag) (width : Nat) (long : Bool) (k : IntConv) : List UInt8 :=
  flags.map Flag.char ++ (widthText width ++ ((if long then [108] else []) ++ [k.char]))

/-! ## The standard -/

/-- The digits of a number, of which 0 has one. -/
def cDigits (base : Nat) (upper : Bool) (n : Nat) : List UInt8 :=
  if n = 0 then [48] else ((Nat.digits base n).map (digitChar upper)).reverse

/-- A number in a field: the flag `-` puts it on the left side, and makes the flag `0` ignored; that flag
    puts zeros between the sign and the digits. -/
def cInteger (flags : List Flag) (width : Nat) (negative : Bool) (base : Nat) (upper : Bool) (n : Nat) :
    List UInt8 :=
  let sign : List UInt8 := if negative then [45] else []
  let digits := cDigits base upper n
  let pad := width - (sign.length + digits.length)
  if .minus ∈ flags then sign ++ digits ++ List.replicate pad 32
  else if .zero ∈ flags then sign ++ List.replicate pad 48 ++ digits
  else List.replicate pad 32 ++ sign ++ digits

def IntConv.text (k : IntConv) (flags : List Flag) (width : Nat) (long : Bool) (v : UInt64) :
    List UInt8 :=
  let longs := if long then 1 else 0
  match k with
  | .d => cInteger flags width (decide (signedArg longs v < 0)) 10 false (signedArg longs v).natAbs
  | .u => cInteger flags width false 10 false (unsignedArg longs v)
  | .x => cInteger flags width false 16 false (unsignedArg longs v)
  | .X => cInteger flags width false 16 true (unsignedArg longs v)

/-! ## Digits -/

theorem digitsOf_eq {base : Nat} {upper : Bool} (hbase : 1 < base) (fuel : Nat) : ∀ {value : Nat},
    value ≤ fuel → digitsOf base upper fuel value = (Nat.digits base value).map (digitChar upper) := by
  induction fuel with
  | zero =>
    intro value h
    rw [Nat.le_zero.mp h, Nat.digits_zero]
    rfl
  | succ fuel ih =>
    intro value h
    rw [digitsOf]
    by_cases h0 : value = 0
    · rw [if_pos h0, h0, Nat.digits_zero]
      rfl
    · have hpos := Nat.pos_of_ne_zero h0
      have hlt := Nat.div_lt_self hpos hbase
      rw [if_neg h0, Nat.digits_def' hbase hpos, List.map_cons, ih (by omega)]

theorem reverse_numberTmp {base : Nat} (hbase : 1 < base) (value : Nat) (negative upper : Bool) :
    (numberTmp value base negative upper).reverse =
      (if negative then [45] else []) ++ cDigits base upper value := by
  have hsign : (if negative then [(45 : UInt8)] else []).reverse = if negative then [45] else [] := by
    cases negative <;> rfl
  rw [numberTmp, List.reverse_append, hsign, cDigits]
  by_cases h0 : value = 0
  · rw [if_pos h0, if_pos h0]
    rfl
  · rw [if_neg h0, if_neg h0, digitsOf_eq hbase value (Nat.le_refl _)]

theorem numeral_eq_cDigits (value : Nat) : numeral value = cDigits 10 false value := by
  rw [numeral, reverse_numberTmp (by decide)]
  rfl

/-- A numeral does not begin with a zero. -/
theorem head_numeral {value : Nat} (h : value ≠ 0) : ∀ c ∈ (numeral value).head?, c ≠ 48 := by
  intro c hc
  have hne := Nat.digits_ne_nil_iff_ne_zero (b := 10).mpr h
  rw [numeral_eq_cDigits, cDigits, if_neg h, List.head?_reverse, List.getLast?_map,
    List.getLast?_eq_getLast_of_ne_nil hne] at hc
  obtain rfl := Option.some.inj hc
  have hlast := Nat.getLast_digit_ne_zero 10 h
  have hlt := Nat.digits_lt_base (by decide : 1 < 10) (List.getLast_mem hne)
  intro heq
  have htoNat := digitChar_toNat false hlt
  rw [heq] at htoNat
  have : (48 : UInt8).toNat = 48 := rfl
  omega

/-! ## Reading a directive -/

theorem scan_flags (flags : List Flag) {rest : List UInt8} (hrest : ∀ c ∈ rest.head?, c ≠ 45 ∧ c ≠ 48) :
    ∀ a : Bool × Bool, scanList flagStep a (flags.map Flag.char ++ rest) =
      ((a.1 || decide (.minus ∈ flags), a.2 || decide (.zero ∈ flags)), rest) := by
  induction flags with
  | nil =>
    intro a
    have ha : ((a.1 || decide (Flag.minus ∈ []), a.2 || decide (Flag.zero ∈ [])), rest) = (a, rest) := by
      simp
    rw [ha, List.map_nil, List.nil_append]
    cases rest with
    | nil => rfl
    | cons c rest =>
      obtain ⟨h45, h48⟩ := hrest c rfl
      rw [scanList, flagStep, if_neg h45, if_neg h48]
  | cons flag flags ih =>
    intro a
    rw [List.map_cons, List.cons_append, scanList]
    cases flag with
    | minus =>
      refine (ih (true, a.2)).trans ?_
      simp
    | zero =>
      refine (ih (a.1, true)).trans ?_
      simp

theorem scan_width {ds rest : List UInt8} (hds : ∀ c ∈ ds, isDigit c = true)
    (hrest : ∀ c ∈ rest.head?, ¬ isDigit c = true) :
    ∀ a, scanList widthStep a (ds ++ rest) = (decimalFrom a ds, rest) := by
  induction ds with
  | nil =>
    intro a
    cases rest with
    | nil => rfl
    | cons c rest =>
      have hc : ¬ (48 ≤ c ∧ c ≤ 57) := fun h => hrest c rfl (decide_eq_true h)
      rw [List.nil_append, scanList, widthStep, if_neg hc]
      rfl
  | cons c ds ih =>
    intro a
    have hc : 48 ≤ c ∧ c ≤ 57 := of_decide_eq_true (hds c (List.mem_cons_self ..))
    rw [List.cons_append, scanList, widthStep, if_pos hc, decimalFrom_cons]
    exact ih (fun c' hc' => hds c' (List.mem_cons_of_mem _ hc')) _

theorem isDigit_widthText (width : Nat) : ∀ c ∈ widthText width, isDigit c = true := by
  intro c hc
  rw [widthText] at hc
  split at hc
  · cases hc
  · exact isDigit_numeral width c hc

theorem decimal_widthText (width : Nat) : decimal (widthText width) = width := by
  rw [widthText]
  by_cases h0 : width = 0
  · rw [if_pos h0, h0]
    rfl
  · rw [if_neg h0, decimal_numeral]

/-- Neither the length modifier nor the conversion is a flag or a digit. -/
theorem head_conversion (long : Bool) (k : IntConv) :
    ∀ c ∈ ((if long then [108] else []) ++ [k.char] : List UInt8).head?,
      ¬ isDigit c = true ∧ c ≠ 45 ∧ c ≠ 48 := by
  intro c hc
  cases long <;> cases k <;> cases hc <;> decide

/-- The flags end where the width or the conversion begins. -/
theorem head_width (width : Nat) (long : Bool) (k : IntConv) :
    ∀ c ∈ (widthText width ++ ((if long then [108] else []) ++ [k.char])).head?, c ≠ 45 ∧ c ≠ 48 := by
  intro c hc
  by_cases h0 : width = 0
  · rw [widthText, if_pos h0, List.nil_append] at hc
    exact (head_conversion long k c hc).2
  · have hne := numeral_ne_nil width
    rw [widthText, if_neg h0, List.head?_append_of_ne_nil _ hne] at hc
    refine ⟨?_, head_numeral h0 c hc⟩
    rintro rfl
    exact absurd (isDigit_numeral width 45 (List.mem_of_mem_head? hc)) (by decide)

theorem scan_longs (long : Bool) (k : IntConv) :
    scanList longStep 0 ((if long then [108] else []) ++ [k.char]) =
      (if long then 1 else 0, [k.char]) := by
  cases long <;> cases k <;> rfl

theorem readDirective_tail (flags : List Flag) (width : Nat) (long : Bool) (k : IntConv) :
    readDirective (directiveTail flags width long k) =
      ⟨decide (.minus ∈ flags), decide (.zero ∈ flags), width, if long then 1 else 0, [k.char]⟩ := by
  have hflags := readFlags_eq (false, false) (directiveTail flags width long k)
  rw [directiveTail, scan_flags flags (head_width width long k)] at hflags
  have hz : ¬ k.char = 122 := by cases k <;> decide
  simp only [Bool.false_or] at hflags
  simp only [readDirective, directiveTail, hflags, readWidth_eq, readLongs_eq,
    scan_width (isDigit_widthText width) fun c hc => (head_conversion long k c hc).1, scan_longs,
    List.head?_cons,
    Option.some.injEq, if_neg hz]
  rw [show decimalFrom 0 (widthText width) = width from decimal_widthText width]

theorem zero_notMem_directive (flags : List Flag) (width : Nat) (long : Bool) (k : IntConv) :
    0 ∉ (37 :: directiveTail flags width long k : List UInt8) := by
  simp only [directiveTail, List.mem_cons, List.mem_append, List.mem_map, not_or]
  refine ⟨by decide, ?_, ?_, ?_, ?_⟩
  · rintro ⟨flag, -, hflag⟩
    cases flag <;> exact absurd hflag (by decide)
  · intro h
    exact absurd (isDigit_widthText width 0 h) (by decide)
  · cases long <;> decide
  · cases k <;> decide

/-- A directive: `%`, flags in any order, a width, `l` or nothing, and the conversion. -/
def directive (flags : List Flag) (width : Nat) (long : Bool) (k : IntConv) : CString :=
  ⟨37 :: directiveTail flags width long k, zero_notMem_directive flags width long k⟩

/-! ## What is printed -/

/-- What `vsnprintf` prints. -/
def IntConv.printed (k : IntConv) (flags : List Flag) (width : Nat) (long : Bool) (v : UInt64) :
    List UInt8 :=
  let longs := if long then 1 else 0
  let zeroPad := decide (.zero ∈ flags)
  let left := decide (.minus ∈ flags)
  match k with
  | .d => numberText (signedArg longs v).natAbs 10 (decide (signedArg longs v < 0)) false width zeroPad left
  | .u => numberText (unsignedArg longs v) 10 false false width zeroPad left
  | .x => numberText (unsignedArg longs v) 16 false false width zeroPad left
  | .X => numberText (unsignedArg longs v) 16 false true width zeroPad left

theorem produces_printed (flags : List Flag) (width : Nat) (long : Bool) (k : IntConv) (v : UInt64) :
    Produces (directive flags width long k) [.word v] (k.printed flags width long v) := by
  apply produces_of_formatText
  have hconv : conversionText [.word v] (decide (.minus ∈ flags)) (decide (.zero ∈ flags)) width
      (if long then 1 else 0) k.char = some (k.printed flags width long v, []) := by
    cases k <;> rfl
  have hround : formatText ((directive flags width long k).1.length + 1) (directive flags width long k).1
      [.word v] = ((conversionText [.word v] (decide (.minus ∈ flags)) (decide (.zero ∈ flags)) width
        (if long then 1 else 0) k.char).bind fun r =>
          (formatText (directive flags width long k).1.length [] r.2).map (r.1 ++ ·)) := by
    rw [directive, formatText, if_neg (by decide), readDirective_tail]
  rw [hround, hconv, Option.bind_some]
  exact congrArg some (List.append_nil _)

/-- Zeros go before the sign, and so a negative number that is filled up with zeros is printed otherwise
    than the standard says. -/
theorem numberText_eq_iff (flags : List Flag) (width : Nat) (negative : Bool) {base : Nat}
    (hbase : 1 < base) (upper : Bool) (n : Nat) :
    numberText n base negative upper width (decide (.zero ∈ flags)) (decide (.minus ∈ flags)) =
      cInteger flags width negative base upper n ↔
    ¬ (.zero ∈ flags ∧ .minus ∉ flags ∧ negative = true ∧ (cDigits base upper n).length + 1 < width) := by
  rw [numberText, reverse_numberTmp hbase, cInteger]
  generalize cDigits base upper n = digits
  have hpad : ∀ sign : List UInt8, ((width : Int) - (sign ++ digits).length).toNat =
      width - (sign.length + digits.length) := by
    intro sign
    rw [List.length_append]
    omega
  simp only [hpad, decide_eq_true_eq]
  by_cases hminus : .minus ∈ flags
  · rw [if_pos hminus, if_pos hminus]
    exact iff_of_true rfl fun h => h.2.1 hminus
  rw [if_neg hminus, if_neg hminus]
  by_cases hzero : .zero ∈ flags
  · rw [if_pos hzero, if_pos hzero]
    cases negative with
    | false =>
      simp only [Bool.false_eq_true, if_false, List.nil_append]
      exact iff_of_true trivial fun h => h.2.2.1.elim
    | true =>
      simp only [if_true, List.length_singleton, List.singleton_append]
      by_cases hlt : digits.length + 1 < width
      · obtain ⟨p, hp⟩ := Nat.exists_eq_succ_of_ne_zero (show width - (1 + digits.length) ≠ 0 by omega)
        refine iff_of_false ?_ fun h => h ⟨hzero, hminus, trivial, hlt⟩
        rw [hp, List.replicate_succ, List.cons_append]
        intro heq
        exact absurd (List.cons.inj heq).1 (by decide)
      · rw [show width - (1 + digits.length) = 0 by omega]
        exact iff_of_true rfl fun h => hlt h.2.2.2
  · rw [if_neg hzero, if_neg hzero]
    refine iff_of_true ?_ fun h => hzero h.1
    rw [List.append_assoc]

/-- A negative number is to be filled up with zeros. -/
def ZerosBeforeSign (flags : List Flag) (width : Nat) (long : Bool) (k : IntConv) (v : UInt64) : Prop :=
  k = .d ∧ .zero ∈ flags ∧ .minus ∉ flags ∧ signedArg (if long then 1 else 0) v < 0 ∧
    (signedArg (if long then 1 else 0) v).natAbs < 10 ^ (width - 2)

/-- The digits and the sign are shorter than the field. -/
theorem length_cDigits_lt {n : Nat} (h : n ≠ 0) (width : Nat) :
    (cDigits 10 false n).length + 1 < width ↔ n < 10 ^ (width - 2) := by
  have hpos : 0 < (Nat.digits 10 n).length :=
    List.length_pos_iff.mpr (Nat.digits_ne_nil_iff_ne_zero.mpr h)
  rw [← Nat.digits_length_le_iff (by decide), cDigits, if_neg h, List.length_reverse, List.length_map]
  omega

theorem printed_eq_text_iff (flags : List Flag) (width : Nat) (long : Bool) (k : IntConv) (v : UInt64) :
    k.printed flags width long v = k.text flags width long v ↔
      ¬ ZerosBeforeSign flags width long k v := by
  have hother : ∀ {base : Nat} (hbase : 1 < base) (upper : Bool) (n : Nat),
      numberText n base false upper width (decide (.zero ∈ flags)) (decide (.minus ∈ flags)) =
        cInteger flags width false base upper n := by
    intro base hbase upper n
    exact (numberText_eq_iff flags width false hbase upper n).mpr fun h => absurd h.2.2.1 (by decide)
  cases k with
  | d =>
    refine (numberText_eq_iff flags width _ (by decide) false _).trans (not_congr ?_)
    rw [decide_eq_true_eq, ZerosBeforeSign]
    constructor
    · rintro ⟨hzero, hminus, hneg, hlen⟩
      exact ⟨rfl, hzero, hminus, hneg, (length_cDigits_lt (by omega) width).mp hlen⟩
    · rintro ⟨-, hzero, hminus, hneg, hlt⟩
      exact ⟨hzero, hminus, hneg, (length_cDigits_lt (by omega) width).mpr hlt⟩
  | u => exact iff_of_true (hother (by decide) false _) fun h => absurd h.1 (by decide)
  | x => exact iff_of_true (hother (by decide) false _) fun h => absurd h.1 (by decide)
  | X => exact iff_of_true (hother (by decide) true _) fun h => absurd h.1 (by decide)

/-- Without the flag `0` the directive prints what the standard says. -/
theorem produces_text {flags : List Flag} (h : .zero ∉ flags) (width : Nat) (long : Bool) (k : IntConv)
    (v : UInt64) : Produces (directive flags width long k) [.word v] (k.text flags width long v) := by
  rw [← (printed_eq_text_iff flags width long k v).mpr fun hzeros => h hzeros.2.1]
  exact produces_printed flags width long k v

/-- A number that needs no sign, without a field. -/
theorem cInteger_plain (base : Nat) (upper : Bool) (n : Nat) :
    cInteger [] 0 false base upper n = cDigits base upper n := by
  show List.replicate (0 - _) 32 ++ [] ++ cDigits base upper n = _
  rw [Nat.zero_sub]
  rfl

/-- The directive prints what the standard says if and only if no zeros go before a sign. -/
theorem integer_directive_iff (flags : List Flag) (width : Nat) (long : Bool) (k : IntConv)
    (v : UInt64) : Produces (directive flags width long k) [.word v] (k.text flags width long v) ↔
      ¬ ZerosBeforeSign flags width long k v := by
  have hprinted := produces_printed flags width long k v
  rw [← printed_eq_text_iff]
  exact ⟨fun h => hprinted.unique h, fun h => h ▸ hprinted⟩

/-- `%05d` of -42 is `00-42`, where the standard says `-0042`. -/
theorem not_integer_directive : ¬ Produces (directive [.zero] 5 false .d) [.word (-42)]
    (IntConv.d.text [.zero] 5 false (-42)) := by
  intro h
  have heq := (produces_printed [.zero] 5 false .d (-42)).unique h
  exact absurd heq (by decide)

end ChocoOs.Kprintf
