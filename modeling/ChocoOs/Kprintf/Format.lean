import ChocoOs.Lib.CString
import ChocoOs.Lib.Loop
import Mathlib.Algebra.Group.Nat.Defs

/-!
# Formatted output

`vsnprintf` of `kprintf.c` over the bytes of a format and a list of arguments. `none` means that a
byte outside a buffer is written, or that an argument is missing or of another kind.
-/

namespace ChocoOs.Kprintf
open ProgLib

/-- An argument of a call: a word, or a string, which may be a null pointer. -/
inductive Arg where
  | word (v : UInt64)
  | str (s : Option CString)
  deriving DecidableEq

/-- `OutBuf` (`kprintf.c:9-14`). -/
structure OutBuf where
  buf : List UInt8
  size : Nat
  pos : Nat
  deriving DecidableEq

/-- `out_char` (`kprintf.c:16-21`) -/
def outChar (o : OutBuf) (c : UInt8) : Option OutBuf :=
  if o.pos + 1 < o.size then
    if o.pos < o.buf.length then some { o with buf := o.buf.set o.pos c, pos := o.pos + 1 } else none
  else some { o with pos := o.pos + 1 }

/-- `while (*s) out_char(&o, *s++);` -/
def outString (o : OutBuf) (s : List UInt8) : Option OutBuf := s.foldlM outChar o

/-- `out_pad` (`kprintf.c:23-27`) -/
def outPad (o : OutBuf) (pad : UInt8) (count : Int) : Option OutBuf :=
  outString o (List.replicate count.toNat pad)

/-- A digit of `digits_lower` or `digits_upper`. -/
def digitChar (upper : Bool) (d : Nat) : UInt8 :=
  UInt8.ofNat (if d < 10 then 48 + d else (if upper then 65 else 97) + (d - 10))

/-- `while (value) { tmp[len++] = digits[value % base]; value /= base; }` for at most `fuel` rounds. -/
def digitsOf (base : Nat) (upper : Bool) : Nat → Nat → List UInt8
  | 0, _ => []
  | fuel + 1, value =>
    if value = 0 then [] else digitChar upper (value % base) :: digitsOf base upper fuel (value / base)

/-- What `out_number` collects in `tmp`, from the last character on (`kprintf.c:39-47`). -/
def numberTmp (value base : Nat) (negative upper : Bool) : List UInt8 :=
  (if value = 0 then [48] else digitsOf base upper value value) ++ if negative then [45] else []

/-- `out_number` (`kprintf.c:32-56`) -/
def outNumber (o : OutBuf) (value base : Nat) (negative upper : Bool) (width : Int)
    (zeroPad left : Bool) : Option OutBuf := do
  let tmp := numberTmp value base negative upper
  if 32 < tmp.length then none
  else
    let pad := width - tmp.length
    let o ← if left then some o else outPad o (if zeroPad then 48 else 32) pad
    let o ← outString o tmp.reverse
    if left then outPad o 32 pad else return o

/-- The flags of a directive (`kprintf.c:72-80`). -/
def readFlags (left zeroPad : Bool) : List UInt8 → Bool × Bool × List UInt8
  | [] => (left, zeroPad, [])
  | c :: fmt =>
    if c = 45 then readFlags true zeroPad fmt
    else if c = 48 then readFlags left true fmt
    else (left, zeroPad, c :: fmt)

/-- The field width (`kprintf.c:82-87`). -/
def readWidth (width : Nat) : List UInt8 → Nat × List UInt8
  | [] => (width, [])
  | c :: fmt =>
    if 48 ≤ c ∧ c ≤ 57 then readWidth (width * 10 + (c.toNat - 48)) fmt else (width, c :: fmt)

/-- `while (*fmt == 'l') { longs++; fmt++; }` -/
def readLongs (longs : Nat) : List UInt8 → Nat × List UInt8
  | [] => (longs, [])
  | c :: fmt => if c = 108 then readLongs (longs + 1) fmt else (longs, c :: fmt)

/-- `longs ? va_arg(ap, int64_t) : va_arg(ap, int32_t)` -/
def signedArg (longs : Nat) (v : UInt64) : Int :=
  if longs ≠ 0 then v.toBitVec.toInt else (v.toBitVec.setWidth 32).toInt

/-- `longs ? va_arg(ap, uint64_t) : va_arg(ap, uint32_t)` -/
def unsignedArg (longs : Nat) (v : UInt64) : Nat := if longs ≠ 0 then v.toNat else v.toNat % 2 ^ 32

/-- `(null)` -/
def nullText : List UInt8 := [40, 110, 117, 108, 108, 41]

/-- The conversions (`kprintf.c:101-158`), for a character that is not the terminator. -/
def conversion (o : OutBuf) (args : List Arg) (left zeroPad : Bool) (width longs : Nat) (k : UInt8) :
    Option (OutBuf × List Arg) :=
  if k = 115 then -- s
    match args with
    | .str s :: args => do
      let s := (s.map Subtype.val).getD nullText
      let pad : Int := width - s.length
      let o ← if left then some o else outPad o 32 pad
      let o ← outString o s
      let o ← if left then outPad o 32 pad else some o
      return (o, args)
    | _ => none
  else if k = 99 then -- c
    match args with
    | .word v :: args => (outChar o v.toUInt8).map (·, args)
    | _ => none
  else if k = 100 ∨ k = 105 then -- d, i
    match args with
    | .word v :: args =>
      let v := signedArg longs v
      (outNumber o v.natAbs 10 (decide (v < 0)) false width zeroPad left).map (·, args)
    | _ => none
  else if k = 117 then -- u
    match args with
    | .word v :: args =>
      (outNumber o (unsignedArg longs v) 10 false false width zeroPad left).map (·, args)
    | _ => none
  else if k = 120 ∨ k = 88 then -- x, X
    match args with
    | .word v :: args =>
      (outNumber o (unsignedArg longs v) 16 false (decide (k = 88)) width zeroPad left).map (·, args)
    | _ => none
  else if k = 112 then -- p
    match args with
    | .word v :: args => do
      let o ← outString o [48, 120]
      let o ← outNumber o v.toNat 16 false false 16 true false
      return (o, args)
    | _ => none
  else if k = 37 then (outChar o 37).map (·, args)
  else (outString o [37, k]).map (·, args)

/-- One round of the loop over the format (`kprintf.c:62-159`). -/
def fmtRound : List UInt8 × List Arg × OutBuf →
    Option (LoopStep (List UInt8 × List Arg × OutBuf) OutBuf)
  | ([], _, o) => some (.done o)
  | (c :: fmt, args, o) =>
    if c ≠ 37 then (outChar o c).map fun o => .next (fmt, args, o)
    else
      let (left, zeroPad, fmt) := readFlags false false fmt
      let (width, fmt) := readWidth 0 fmt
      let (longs, fmt) := readLongs 0 fmt
      let (longs, fmt) := if fmt.head? = some 122 then (2, fmt.tail) else (longs, fmt)
      match fmt with
      | [] => (outChar o 37).map fun o => .next ([], args, o)
      | k :: fmt =>
        (conversion o args left zeroPad width longs k).map fun (o, args) => .next (fmt, args, o)

/-- `vsnprintf` (`kprintf.c:58-165`): what it leaves in `buf`, and the length of the text. -/
def vsnprintf (buf : List UInt8) (size : Nat) (fmt : List UInt8) (args : List Arg) :
    Option (List UInt8 × Nat) := do
  let o ← loop fmtRound (fmt.length + 1) (fmt, args, ⟨buf, size, 0⟩)
  if size = 0 then return (o.buf, o.pos)
  else
    let i := if o.pos < size - 1 then o.pos else size - 1
    if i < o.buf.length then return (o.buf.set i 0, o.pos) else none

/-- `snprintf` (`kprintf.c:167-174`) -/
def snprintf (buf : List UInt8) (size : Nat) (fmt : List UInt8) (args : List Arg) :
    Option (List UInt8 × Nat) := vsnprintf buf size fmt args

end ChocoOs.Kprintf
