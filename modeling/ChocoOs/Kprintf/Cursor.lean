import ChocoOs.Kprintf.Format
import ChocoOs.Lib.Scan

/-!
# The format and its cursor

`vsnprintf` with the format as it lies in memory: the cursor is an index, and reading a byte behind the
terminator has no result. In one case the code moves the cursor back.
-/

namespace ChocoOs.Kprintf
open ProgLib

/-- The loop over the flags (`kprintf.c:73-80`). -/
def flagStep (flags : Bool × Bool) (c : UInt8) : Option (Bool × Bool) :=
  if c = 45 then some (true, flags.2) else if c = 48 then some (flags.1, true) else none

/-- The loop over the field width (`kprintf.c:83-87`). -/
def widthStep (width : Nat) (c : UInt8) : Option Nat :=
  if 48 ≤ c ∧ c ≤ 57 then some (width * 10 + (c.toNat - 48)) else none

/-- The loop over `l` (`kprintf.c:90-94`). -/
def longStep (longs : Nat) (c : UInt8) : Option Nat := if c = 108 then some (longs + 1) else none

/-- One round of the loop over the format (`kprintf.c:62-159`). -/
def fmtRoundAt (fmt : List UInt8) : Nat × List Arg × OutBuf →
    Option (LoopStep (Nat × List Arg × OutBuf) OutBuf)
  | (i, args, o) => do
    let c ← byteAt fmt i
    if c = 0 then return .done o
    else if c ≠ 37 then (outChar o c).map fun o => .next (i + 1, args, o)
    else
      let (flags, i) ← scanAt flagStep fmt (fmt.length + 1) (false, false) (i + 1)
      let (width, i) ← scanAt widthStep fmt (fmt.length + 1) 0 i
      let (longs, i) ← scanAt longStep fmt (fmt.length + 1) 0 i
      let c ← byteAt fmt i
      let (longs, i) := if c = 122 then (2, i + 1) else (longs, i)
      let k ← byteAt fmt i
      -- `fmt--` at the terminator, and `fmt++` of the loop
      if k = 0 then (outChar o 37).map fun o => .next (i - 1 + 1, args, o)
      else
        (conversion o args flags.1 flags.2 width longs k).map fun (o, args) => .next (i + 1, args, o)

/-- `vsnprintf` (`kprintf.c:58-165`): what it leaves in `buf`, and the length of the text. -/
def vsnprintfAt (buf : List UInt8) (size : Nat) (fmt : CString) (args : List Arg) :
    Option (List UInt8 × Nat) := do
  let o ← loop (fmtRoundAt fmt.1) (fmt.1.length + 1) (0, args, ⟨buf, size, 0⟩)
  if size = 0 then return (o.buf, o.pos)
  else
    let i := if o.pos < size - 1 then o.pos else size - 1
    if i < o.buf.length then return (o.buf.set i 0, o.pos) else none

/-! ## The bytes that are left -/

theorem readFlags_eq (flags : Bool × Bool) (fmt : List UInt8) : readFlags flags.1 flags.2 fmt =
    ((scanList flagStep flags fmt).1.1, (scanList flagStep flags fmt).1.2,
      (scanList flagStep flags fmt).2) := by
  induction fmt generalizing flags with
  | nil => rfl
  | cons c fmt ih =>
    rw [readFlags, scanList, flagStep]
    by_cases hminus : c = 45
    · rw [if_pos hminus, if_pos hminus]
      exact ih (true, flags.2)
    rw [if_neg hminus, if_neg hminus]
    by_cases hzero : c = 48
    · rw [if_pos hzero, if_pos hzero]
      exact ih (flags.1, true)
    · rw [if_neg hzero, if_neg hzero]

theorem readWidth_eq (width : Nat) (fmt : List UInt8) :
    readWidth width fmt = scanList widthStep width fmt := by
  induction fmt generalizing width with
  | nil => rfl
  | cons c fmt ih =>
    rw [readWidth, scanList, widthStep]
    by_cases hdigit : 48 ≤ c ∧ c ≤ 57
    · rw [if_pos hdigit, if_pos hdigit]
      exact ih _
    · rw [if_neg hdigit, if_neg hdigit]

theorem readLongs_eq (longs : Nat) (fmt : List UInt8) :
    readLongs longs fmt = scanList longStep longs fmt := by
  induction fmt generalizing longs with
  | nil => rfl
  | cons c fmt ih =>
    rw [readLongs, scanList, longStep]
    by_cases hlong : c = 108
    · rw [if_pos hlong, if_pos hlong]
      exact ih _
    · rw [if_neg hlong, if_neg hlong]

/-- The format from the cursor on. -/
def restFrom (fmt : List UInt8) : Nat × List Arg × OutBuf → List UInt8 × List Arg × OutBuf
  | (i, args, o) => (fmt.drop i, args, o)

/-- The round on the bytes that are left, and the round with the cursor. -/
abbrev Agrees (fmt : List UInt8) : Option (LoopStep (List UInt8 × List Arg × OutBuf) OutBuf) →
    Option (LoopStep (Nat × List Arg × OutBuf) OutBuf) → Prop :=
  RoundView (restFrom fmt) fun t => t.1 ≤ fmt.length

theorem agrees_map {α : Type} {fmt : List UInt8} (x : Option α) {i : Nat} (hi : i ≤ fmt.length)
    (g : α → List Arg × OutBuf) :
    Agrees fmt (x.map fun a => .next (fmt.drop i, g a)) (x.map fun a => .next (i, g a)) := by
  cases x with
  | none => exact ⟨rfl, nofun⟩
  | some a =>
    refine ⟨rfl, fun t ht => ?_⟩
    cases ht
    exact hi

/-- What follows the `l` and `z` of a directive. -/
theorem agrees_conversion {fmt : List UInt8} (hfmt : 0 ∉ fmt) {i : Nat} (hi : i ≤ fmt.length)
    (hpos : 0 < i) (args : List Arg) (o : OutBuf) (flags : Bool × Bool) (width longs : Nat) :
    Agrees fmt
      (match fmt.drop i with
        | [] => (outChar o 37).map fun o => .next ([], args, o)
        | k :: fmt => (conversion o args flags.1 flags.2 width longs k).map fun (o, args) =>
            .next (fmt, args, o))
      (do
        let k ← byteAt fmt i
        if k = 0 then (outChar o 37).map fun o => .next (i - 1 + 1, args, o)
        else (conversion o args flags.1 flags.2 width longs k).map fun (o, args) =>
          .next (i + 1, args, o)) := by
  rw [byteAt_eq hi]
  rcases Nat.lt_or_eq_of_le hi with hlt | rfl
  · have hne : fmt[i] ≠ 0 := fun h0 => hfmt (h0 ▸ List.getElem_mem hlt)
    rw [List.drop_eq_getElem_cons hlt]
    simp only [List.headD_cons, Option.bind_eq_bind, Option.bind_some, if_neg hne]
    exact agrees_map _ hlt fun r : OutBuf × List Arg => (r.2, r.1)
  · have hback : fmt.length - 1 + 1 = fmt.length := Nat.sub_add_cancel hpos
    have hall := agrees_map (outChar o 37) (Nat.le_refl fmt.length) fun o => (args, o)
    simp only [List.drop_length] at hall
    simp only [List.drop_length, List.headD_nil, Option.bind_eq_bind, Option.bind_some, if_true, hback]
    exact hall

/-- The `z` of a directive. -/
theorem zPrefix_view (fmt : List UInt8) {i : Nat} (hi : i ≤ fmt.length) (hpos : 0 < i) (longs : Nat) :
    ∃ p : Nat × Nat, (if (fmt.drop i).headD 0 = 122 then (2, i + 1) else (longs, i)) = p ∧
      (if (fmt.drop i).head? = some 122 then (2, (fmt.drop i).tail) else (longs, fmt.drop i)) =
        (p.1, fmt.drop p.2) ∧ p.2 ≤ fmt.length ∧ 0 < p.2 := by
  refine ⟨_, rfl, ?_⟩
  rcases Nat.lt_or_eq_of_le hi with hlt | rfl
  · have hdrop := List.drop_eq_getElem_cons hlt
    rw [hdrop, List.head?_cons, List.headD_cons, List.tail_cons]
    by_cases hz : fmt[i] = 122
    · rw [if_pos hz, if_pos (congrArg some hz)]
      exact ⟨rfl, hlt, Nat.succ_pos i⟩
    · rw [if_neg hz, if_neg fun h => hz (Option.some.inj h), ← hdrop]
      exact ⟨rfl, hi, hpos⟩
  · have hz : ¬ (0 : UInt8) = 122 := by decide
    rw [List.drop_length, List.headD_nil, if_neg hz]
    exact ⟨by rw [List.drop_length]; rfl, hi, hpos⟩

theorem fmtRoundAt_view {fmt : List UInt8} (hfmt : 0 ∉ fmt) (s : Nat × List Arg × OutBuf)
    (hs : s.1 ≤ fmt.length) : Agrees fmt (fmtRound (restFrom fmt s)) (fmtRoundAt fmt s) := by
  obtain ⟨i, args, o⟩ := s
  have hs : i ≤ fmt.length := hs
  rw [fmtRoundAt, byteAt_eq hs, restFrom]
  rcases Nat.lt_or_eq_of_le hs with hlt | rfl
  · have hne : fmt[i] ≠ 0 := fun h0 => hfmt (h0 ▸ List.getElem_mem hlt)
    rw [List.drop_eq_getElem_cons hlt]
    simp only [List.headD_cons, Option.bind_eq_bind, Option.bind_some, if_neg hne, fmtRound]
    by_cases hpercent : fmt[i] ≠ 37
    · rw [if_pos hpercent, if_pos hpercent]
      exact agrees_map _ hlt fun o => (args, o)
    rw [if_neg hpercent, if_neg hpercent]
    obtain ⟨flags, j, hij, hj, hflags, hflags'⟩ := scanAt_eq (f := flagStep) (fun _ => rfl)
      (a := (false, false)) (n := fmt.length + 1) hlt (by omega)
    obtain ⟨width, k, hjk, hk, hwidth, hwidth'⟩ := scanAt_eq (f := widthStep) (fun _ => rfl)
      (a := 0) (n := fmt.length + 1) hj (by omega)
    obtain ⟨longs, l, hkl, hl, hlongs, hlongs'⟩ := scanAt_eq (f := longStep) (fun _ => rfl)
      (a := 0) (n := fmt.length + 1) hk (by omega)
    have hread := readFlags_eq (false, false) (fmt.drop (i + 1))
    rw [hflags'] at hread
    obtain ⟨p, hp, hlist, hle, hpos⟩ := zPrefix_view fmt hl (by omega) longs
    have htail := agrees_conversion hfmt hle hpos args o flags width p.1
    simp only [hread, readWidth_eq, hwidth', readLongs_eq, hlongs', hflags, hwidth, hlongs,
      Option.bind_some, byteAt_eq hl, hlist, hp]
    exact htail
  · simp only [List.drop_length, List.headD_nil, Option.bind_eq_bind, Option.bind_some, if_true]
    exact ⟨rfl, nofun⟩

/-- The cursor never leaves the format. -/
theorem vsnprintfAt_eq (buf : List UInt8) (size : Nat) (fmt : CString) (args : List Arg) :
    vsnprintfAt buf size fmt args = vsnprintf buf size fmt.1 args := by
  have hloop := loop_view (fmtRoundAt_view fmt.2) (fmt.1.length + 1) (0, args, ⟨buf, size, 0⟩)
    (Nat.zero_le _)
  rw [vsnprintfAt, vsnprintf, ← hloop]
  rfl

end ChocoOs.Kprintf
